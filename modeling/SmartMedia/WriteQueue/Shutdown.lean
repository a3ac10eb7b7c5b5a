import SmartMedia.WriteQueue.Drain
import SmartMedia.WriteQueue.MergeCache

/-!
# Does `stop(wait=True)` drain the queue?

`stop` clears `_running` and joins the workers; it returns when all of them have ended. A
worker tests the flag before each batch, so it finishes the batch in its hands and ends,
whatever is left in the heap, its own retries included. A task that was accepted is in
the heap, in a worker's hands, or has its outcome; so nothing is lost exactly if the last
worker to end leaves an empty heap. A submit that was absorbed into a task outside the
heap is lost in any case.
-/
set_option linter.unusedSectionVars false

namespace SmartMedia.WriteQueue

universe u

variable {V : Type u} [DecidableEq V]

namespace WriteTask

/-- Completed or failed, with the callback called. -/
def Settled (t : WriteTask V) : Prop :=
  0 < t.completed + t.failed ∧ (t.callback = true → t.told ≠ [])

instance (t : WriteTask V) : Decidable t.Settled := inferInstanceAs (Decidable (_ ∧ _))

theorem settled_succeed (t : WriteTask V) : t.succeed.Settled := by
  refine ⟨?_, fun h => ?_⟩
  · simp only [succeed, tell]
    omega
  · have hcall : t.callback = true := h
    simp [succeed, tell, hcall]

theorem settled_fail (t : WriteTask V) (e : String) : (t.fail e).Settled := by
  refine ⟨?_, fun h => ?_⟩
  · simp only [fail, tell]
    omega
  · have hcall : t.callback = true := h
    simp [fail, tell, hcall]

theorem Settled.step {t t' : WriteTask V} (h : t.Settled) (hw : WorkerWrite t t') :
    t'.Settled := by
  cases hw with
  | attempt => exact h
  | succeed => exact t.settled_succeed
  | fail e => exact t.settled_fail e
  | countRetry => exact h
  | raisePriority => exact h
  | commit => exact h

theorem Settled.steps {t t' : WriteTask V} (h : t.Settled)
    (hw : Relation.ReflTransGen WorkerWrite t t') : t'.Settled :=
  hw.rec h fun _ hstep ih => ih.step hstep

/-- Whether a task was put into the heap does not change in a worker's hands. -/
theorem enqueued_steps {t t' : WriteTask V} (hw : Relation.ReflTransGen WorkerWrite t t') :
    t'.enqueued = t.enqueued := by
  induction hw with
  | refl => rfl
  | tail _ hstep ih => cases hstep <;> exact ih

end WriteTask

namespace AsyncWriteQueue
variable {models : Models V} {q q' : AsyncWriteQueue V} {is : List ℕ} {i j k : ℕ}

/-! ### A worker leaves no task of its group behind -/

/-- Task `i` is in the heap or has its outcome. -/
def Handled (q : AsyncWriteQueue V) (i : ℕ) : Prop :=
  i ∈ q.queue ∨ ∃ t, q.objects[i]? = some t ∧ t.Settled

theorem Handled.mono (h : q.Handled i) (hsub : q.queue ⊆ q'.queue) (he : Evolves is q q') :
    q'.Handled i := by
  rcases h with h | ⟨t, ht, hsettled⟩
  · exact .inl (hsub h)
  · obtain ⟨t', ht', hw, -⟩ := he.object ht
    exact .inr ⟨t', ht', hsettled.steps hw⟩

theorem handled_failTask (hi : i < q.objects.length) (e : String) : (q.failTask i e).Handled i :=
  .inr ⟨_, modify_object (List.getElem?_eq_getElem hi) fun t => t.fail e,
    WriteTask.settled_fail _ e⟩

theorem handled_completeTask (hi : i < q.objects.length) : (q.completeTask i).Handled i :=
  .inr ⟨_, modify_object (List.getElem?_eq_getElem hi) fun t => t.succeed,
    WriteTask.settled_succeed _⟩

theorem handled_retryTask (hi : i < q.objects.length) (e : String) :
    (q.retryTask i e).Handled i := by
  have hlen : i < (q.modify i WriteTask.countRetry).objects.length := by
    rw [modify, List.length_modify]
    exact hi
  unfold retryTask
  simp only [List.getElem?_eq_getElem hlen]
  split_ifs
  · exact handled_failTask hlen e
  · exact .inl ((List.mem_orderedInsert _).mpr (.inl rfl))

theorem handled_runTask (hi : i < q.objects.length) (s : Session V) (fault : Option Fault) :
    (runTask models q s i fault).1.Handled i := by
  unfold runTask
  simp only [List.getElem?_eq_getElem hi]
  split
  · exact handled_completeTask ((List.length_modify _ _ _).symm ▸ hi)
  · exact handled_retryTask ((List.length_modify _ _ _).symm ▸ hi) _

theorem handled_runTasks (hvalid : ∀ i ∈ is, i < q.objects.length) (s : Session V)
    (faults : List (Option Fault)) (hi : i ∈ is) :
    (runTasks models q s is faults).1.Handled i := by
  induction is generalizing q s faults with
  | nil => cases hi
  | cons i' is ih =>
      rw [List.forall_mem_cons] at hvalid
      have hturn : Evolves [i'] q _ := .runTask models s List.mem_cons_self (faults.headD none)
      rcases List.mem_cons.mp hi with rfl | hi
      · exact (handled_runTask hvalid.1 s _).mono ((Touches.runTasks models _ is _).subset)
          (Evolves.runTasks models _ is (List.Subset.refl is) _)
      · refine ih (fun j hj => ?_) _ _ hi
        rw [hturn.length]
        exact hvalid.2 j hj

theorem handled_foldl {g : AsyncWriteQueue V → ℕ → AsyncWriteQueue V}
    (hdone : ∀ q i, i < q.objects.length → (g q i).Handled i)
    (hsub : ∀ q i, Touches q (g q i)) (hg : ∀ q i, Evolves [i] q (g q i))
    (hvalid : ∀ i ∈ is, i < q.objects.length) (hi : i ∈ is) : (is.foldl g q).Handled i := by
  induction is generalizing q with
  | nil => cases hi
  | cons i' is ih =>
      rw [List.forall_mem_cons] at hvalid
      rcases List.mem_cons.mp hi with rfl | hi
      · refine (hdone q i hvalid.1).mono (Touches.foldl hsub is).subset (Evolves.foldl (fun q j hj => ?_) is
          (List.Subset.refl is))
        exact (hg q j).mono (List.cons_subset.mpr ⟨hj, List.nil_subset _⟩)
      · refine ih (fun j hj => ?_) hi
        rw [(hg q i').length]
        exact hvalid.2 j hj

/-- Every task of a group goes back to the heap or gets its outcome. -/
theorem handled_executeModelBatch (hvalid : ∀ i ∈ is, i < q.objects.length) (model : String)
    (faults : List (Option Fault)) (commitFault : Option String) (hi : i ∈ is) :
    (q.executeModelBatch models model is faults commitFault).Handled i := by
  unfold executeModelBatch
  split_ifs
  · have hrun : (runTasks models q (Session.begin (q.db model)) is faults).1.Handled i :=
      handled_runTasks hvalid _ faults hi
    refine hrun.mono ?_ (Evolves.closeSession models (fun j hj => ?_) model commitFault)
    · exact (Touches.closeSession models _ model is commitFault).subset
    · exact (Evolves.runTasks_session models _ is faults j hj).resolve_left List.not_mem_nil
  · exact handled_foldl (fun q i hi => handled_failTask hi _) (fun q i => Touches.failTask _)
      (fun q i => Evolves.failTask (List.mem_singleton_self i) _) hvalid hi

/-! ### Where an accepted task is -/

/-- Another worker than `k` has task `j` in hand. -/
def OtherHand (q : AsyncWriteQueue V) (k j : ℕ) : Prop :=
  ∃ k' w, k' ≠ k ∧ q.workers[k']? = some w ∧ j ∈ w.tasks

/-- In the heap or in a worker's hands. -/
def Live (q : AsyncWriteQueue V) (j : ℕ) : Prop :=
  j ∈ q.queue ∨ ∃ w ∈ q.workers, j ∈ w.tasks

theorem live_iff {w : Worker} (hk : q.workers[k]? = some w) :
    q.Live j ↔ j ∈ q.queue ∨ j ∈ w.tasks ∨ q.OtherHand k j := by
  refine or_congr_right ⟨?_, ?_⟩
  · rintro ⟨w', hw', hj⟩
    obtain ⟨k', hk'⟩ := List.mem_iff_getElem?.mp hw'
    by_cases hkk : k' = k
    · rw [hkk, hk] at hk'
      cases hk'
      exact .inl hj
    · exact .inr ⟨k', w', hkk, hk', hj⟩
  · rintro (hj | ⟨k', w', -, hk', hj⟩)
    · exact ⟨w, List.mem_of_getElem? hk, hj⟩
    · exact ⟨w', List.mem_of_getElem? hk', hj⟩

/-- The other workers keep what they have. -/
theorem live_set {w w' : Worker} (hk : q.workers[k]? = some w)
    (hworkers : q'.workers = q.workers.set k w') :
    q'.Live j ↔ j ∈ q'.queue ∨ j ∈ w'.tasks ∨ q.OtherHand k j := by
  have hlen : k < q.workers.length := (List.getElem?_eq_some_iff.mp hk).1
  have hk' : q'.workers[k]? = some w' := by
    rw [hworkers, List.getElem?_set_self hlen]
  have hother : q'.OtherHand k j ↔ q.OtherHand k j := by
    refine exists_congr fun k' => exists_congr fun w'' => and_congr_right fun hne => ?_
    rw [hworkers, List.getElem?_set_ne (Ne.symm hne)]
  rw [live_iff hk', hother]

/-- Where the tasks are, by whether they were ever put into the heap. -/
structure Placed (q : AsyncWriteQueue V) : Prop where
  live : ∀ j, q.Live j → ∃ t, q.objects[j]? = some t ∧ t.enqueued = true
  settled : ∀ (j : ℕ) (t : WriteTask V), q.objects[j]? = some t → t.enqueued = true → q.Live j ∨ t.Settled
  waiting : ∀ (j : ℕ) (t : WriteTask V), q.objects[j]? = some t → t.enqueued = false → ¬ t.Settled
  cached : ∀ e ∈ q.mergeCache, e.2 ∈ q.queue ∨
    ∃ t, q.objects[e.2]? = some t ∧ t.enqueued = false

theorem placed_initial (maxQueueSize batchSize maxWorkers : ℕ) (db : String → Table V) :
    (initial maxQueueSize batchSize maxWorkers db).Placed := by
  constructor <;> simp [initial, Live]

/-- The tasks only change places. -/
theorem Placed.move (h : q.Placed) (ho : q'.objects = q.objects)
    (hlive : ∀ j, q'.Live j ↔ q.Live j)
    (hcache : ∀ e ∈ q'.mergeCache, e ∈ q.mergeCache ∧ (e.2 ∈ q.queue → e.2 ∈ q'.queue)) :
    q'.Placed := by
  refine ⟨fun j hj => ?_, fun j t ht he => ?_, fun j t ht => ?_, fun e he => ?_⟩
  · rw [ho]
    exact h.live j ((hlive j).mp hj)
  · rw [hlive]
    exact h.settled j t (ho ▸ ht) he
  · exact h.waiting j t (ho ▸ ht)
  · rw [ho]
    exact (h.cached e (hcache e he).1).imp_left (hcache e he).2

theorem Placed.setWorker (h : q.Placed) {w w' : Worker} (hk : q.workers[k]? = some w)
    (htasks : ∀ j, j ∈ w'.tasks ↔ j ∈ w.tasks) : (q.setWorker k w').Placed := by
  refine h.move rfl (fun j => ?_) fun e he => ⟨he, id⟩
  rw [live_set hk rfl, live_iff hk, htasks]
  rfl

theorem Placed.created (h : q.Placed) (sub : Submission V) :
    (q.created sub).Placed := by
  have hold : ∀ (j : ℕ) (t : WriteTask V), q.objects[j]? = some t → (q.created sub).objects[j]? = some t := by
    intro j t ht
    exact (List.getElem?_append_left (List.getElem?_eq_some_iff.mp ht).1).trans ht
  refine ⟨fun j hj => ?_, fun j t ht he => ?_, fun j t ht he => ?_, fun e he => ?_⟩
  · obtain ⟨t, ht, he⟩ := h.live j hj
    exact ⟨t, hold j t ht, he⟩
  · rcases getElem?_concat ht with ht | ⟨-, rfl⟩
    · exact h.settled j t ht he
    · cases he
  · rcases getElem?_concat ht with ht | ⟨-, rfl⟩
    · exact h.waiting j t ht he
    · exact fun hsettled => absurd hsettled.1 (lt_irrefl 0)
  · refine (h.cached e he).imp_right fun ⟨t, ht, hnew⟩ => ⟨t, hold _ t ht, hnew⟩

theorem Placed.cache (h : q.Placed) (sub : Submission V) :
    (q.cached sub).Placed := by
  have hcreated := h.created sub
  refine ⟨hcreated.live, hcreated.settled, hcreated.waiting, fun e he => ?_⟩
  rcases List.mem_append.mp he with he | he
  · exact hcreated.cached e he
  · obtain ⟨key, -, rfl⟩ : ∃ key, sub.key = some key ∧ (key, q.objects.length) = e := by
      simpa using he
    exact .inr ⟨_, List.getElem?_concat_length, rfl⟩

theorem Placed.modify (h : q.Placed) {f : WriteTask V → WriteTask V}
    (henqueued : ∀ t, (f t).enqueued = t.enqueued) (hsettled : ∀ t, (f t).Settled ↔ t.Settled) :
    (q.modify i f).Placed := by
  have hback : ∀ (j : ℕ) (t' : WriteTask V), (q.modify i f).objects[j]? = some t' →
      ∃ t, q.objects[j]? = some t ∧ t'.enqueued = t.enqueued ∧ (t'.Settled ↔ t.Settled) := by
    intro j t' ht'
    rw [AsyncWriteQueue.modify, List.getElem?_modify] at ht'
    obtain ⟨t, ht, rfl⟩ := Option.map_eq_some_iff.mp ht'
    refine ⟨t, ht, ?_⟩
    by_cases hij : i = j
    · simpa [hij] using ⟨henqueued t, hsettled t⟩
    · simp [hij]
  have hforth : ∀ (j : ℕ) (t : WriteTask V), q.objects[j]? = some t →
      ∃ t', (q.modify i f).objects[j]? = some t' ∧ t'.enqueued = t.enqueued := by
    intro j t ht
    rw [AsyncWriteQueue.modify, List.getElem?_modify, ht]
    refine ⟨_, rfl, ?_⟩
    by_cases hij : i = j
    · simpa [hij] using henqueued t
    · simp [hij]
  refine ⟨fun j hj => ?_, fun j t' ht' he => ?_, fun j t' ht' he => ?_, fun e he => ?_⟩
  · obtain ⟨t, ht, he⟩ := h.live j hj
    obtain ⟨t', ht', hsame⟩ := hforth j t ht
    exact ⟨t', ht', hsame.trans he⟩
  · obtain ⟨t, ht, hsame, hsettled⟩ := hback j t' ht'
    exact (h.settled j t ht (hsame.symm.trans he)).imp_right hsettled.mpr
  · obtain ⟨t, ht, hsame, hsettled⟩ := hback j t' ht'
    exact hsettled.not.mpr (h.waiting j t ht (hsame.symm.trans he))
  · refine (h.cached e he).imp_right fun hnew => ?_
    obtain ⟨t, ht, hnew⟩ := hnew
    obtain ⟨t', ht', hsame⟩ := hforth _ t ht
    exact ⟨t', ht', hsame.trans hnew⟩

theorem Placed.submit (h : q.Placed) (sub : Submission V) :
    (q.submit sub).1.Placed := by
  have hout := submitted q sub
  generalize q.submit sub = out at hout ⊢
  cases hout with
  | notRunning => exact h
  | @merged key j =>
      have hmerged := (h.created sub).modify (i := j) (f := fun t => t.merge sub.write.data)
        (fun _ => rfl) (fun _ => Iff.rfl)
      exact ⟨hmerged.live, hmerged.settled, hmerged.waiting, hmerged.cached⟩
  | full => exact h.cache sub
  | accepted =>
      have hcached := h.cache sub
      have hnew : (q.cached sub).objects[q.objects.length]? =
          some (sub.task (q.objects.length + 1)) := List.getElem?_concat_length
      -- the other objects stay as they are
      have hother : ∀ j, j ≠ q.objects.length →
          ((q.cached sub).enqueued q.objects.length).objects[j]? =
            (q.cached sub).objects[j]? := by
        intro j hj
        have hmod := List.getElem?_modify (fun t : WriteTask V => { t with enqueued := true })
          q.objects.length (q.cached sub).objects j
        refine hmod.trans ?_
        simp [Ne.symm hj]
      have hself := modify_object hnew fun t => { t with enqueued := true }
      have hqueue : ∀ j, j ∈ ((q.cached sub).enqueued q.objects.length).queue ↔
          j = q.objects.length ∨ j ∈ q.queue := fun j => List.mem_orderedInsert _
      have hlive : ∀ j, ((q.cached sub).enqueued q.objects.length).Live j ↔
          j = q.objects.length ∨ (q.cached sub).Live j := by
        intro j
        rw [Live, hqueue, or_assoc]
        rfl
      refine ⟨fun j hj => ?_, fun j t ht he => ?_, fun j t ht he => ?_, fun e he => ?_⟩
      · by_cases hij : j = q.objects.length
        · rw [hij]
          exact ⟨_, hself, rfl⟩
        · rw [hother j hij]
          exact hcached.live j (((hlive j).mp hj).resolve_left hij)
      · rw [hlive]
        by_cases hij : j = q.objects.length
        · exact .inl (.inl hij)
        · rw [hother j hij] at ht
          exact (hcached.settled j t ht he).imp_left .inr
      · by_cases hij : j = q.objects.length
        · rw [hij] at ht
          cases ht.symm.trans hself
          cases he
        · rw [hother j hij] at ht
          exact hcached.waiting j t ht he
      · rw [hqueue]
        by_cases hij : e.2 = q.objects.length
        · exact .inl (.inl hij)
        · rw [hother _ hij]
          exact (hcached.cached e he).imp_left .inr

theorem Placed.runGroup (h : q.Placed) (hq : q.Traced) {model : String}
    {rest : List (String × List ℕ)} (hk : q.workers[k]? = some (.executing ((model, is) :: rest)))
    (faults : List (Option Fault)) (commitFault : Option String) :
    ((q.executeModelBatch models model is faults commitFault).afterGroup k rest).Placed := by
  have htasks : ∀ j, j ∈ (Worker.executing ((model, is) :: rest)).tasks ↔
      j ∈ is ∨ j ∈ rest.flatMap Prod.snd := by
    intro j
    rw [Worker.tasks, List.flatMap_cons, List.mem_append]
  have hbefore : ∀ j, q.Live j ↔
      j ∈ q.queue ∨ (j ∈ is ∨ j ∈ rest.flatMap Prod.snd) ∨ q.OtherHand k j := by
    intro j
    rw [live_iff hk, htasks]
  have hvalid : ∀ i ∈ is, i < q.objects.length := fun i hi =>
    hq.inHand _ (List.mem_of_getElem? hk) i ((htasks i).mpr (.inl hi))
  have hsub := (Touches.executeModelBatch (q := q) models model is faults commitFault).subset
  have hdone : ∀ i ∈ is, (q.executeModelBatch models model is faults commitFault).Handled i :=
    fun i hi => handled_executeModelBatch hvalid model faults commitFault hi
  have he : Evolves is q (q.executeModelBatch models model is faults commitFault) :=
    .executeModelBatch models model faults commitFault
  obtain ⟨ho, hqueue, hcache, w, hw, hwtasks⟩ := afterGroup_spec
    (q.executeModelBatch models model is faults commitFault) k rest
  rw [he.workers] at hw
  have hafter := fun j => live_set (j := j) hk hw
  rw [hwtasks, hqueue] at hafter
  refine ⟨fun j hj => ?_, fun j t' ht' hen => ?_, fun j t' ht' hen => ?_, fun e hmem => ?_⟩
  · have hlive : q.Live j := by
      rw [hbefore]
      rcases (hafter j).mp hj with hj | hj | hj
      · exact (he.queue j hj).imp_right fun hj => .inl (.inl hj)
      · exact .inr (.inl (.inr hj))
      · exact .inr (.inr hj)
    obtain ⟨t, ht, hen⟩ := h.live j hlive
    obtain ⟨t', ht', hsteps, -⟩ := he.object ht
    rw [ho]
    exact ⟨t', ht', (WriteTask.enqueued_steps hsteps).trans hen⟩
  · rw [ho] at ht'
    obtain ⟨t, ht, hsteps, -⟩ := he.object_of ht'
    rw [hafter]
    rcases h.settled j t ht ((WriteTask.enqueued_steps hsteps).symm.trans hen) with hlive | hsettled
    · rcases (hbefore j).mp hlive with hj | (hj | hj) | hj
      · exact .inl (.inl (hsub hj))
      · rcases hdone j hj with hj | ⟨t'', ht'', hsettled⟩
        · exact .inl (.inl hj)
        · cases ht'.symm.trans ht''
          exact .inr hsettled
      · exact .inl (.inr (.inl hj))
      · exact .inl (.inr (.inr hj))
    · exact .inr (hsettled.steps hsteps)
  · rw [ho] at ht'
    obtain ⟨t, ht, hsteps, hkeep⟩ := he.object_of ht'
    have hen' : t.enqueued = false := (WriteTask.enqueued_steps hsteps).symm.trans hen
    -- a task that was never in the heap is in no group
    have hnot : j ∉ is := by
      intro hj
      obtain ⟨t₀, ht₀, htrue⟩ := h.live j ((hbefore j).mpr (.inr (.inl (.inl hj))))
      cases ht.symm.trans ht₀
      cases hen'.symm.trans htrue
    rw [hkeep hnot]
    exact h.waiting j t ht hen'
  · rw [hcache, he.mergeCache] at hmem
    rw [hqueue, ho]
    refine (h.cached e hmem).imp (@hsub _) fun hnew => ?_
    obtain ⟨t, ht, hnew⟩ := hnew
    obtain ⟨t', ht', hsteps, -⟩ := he.object ht
    exact ⟨t', ht', (WriteTask.enqueued_steps hsteps).trans hnew⟩

theorem Placed.step {a : Action V} (h : q.Placed) (hq : q.Traced) (ha : a ≠ .clear)
    (hs : q.step models a = some q') : q'.Placed := by
  cases stepped hs with
  | start =>
      unfold startWorkers
      split_ifs
      · exact h
      · refine h.move rfl (fun j => or_congr_right ?_) fun e he => ⟨he, id⟩
        constructor
        · rintro ⟨w, hw, hj⟩
          rcases List.mem_append.mp hw with hw | hw
          · exact ⟨w, hw, hj⟩
          · rw [List.eq_of_mem_replicate hw] at hj
            cases hj
        · rintro ⟨w, hw, hj⟩
          exact ⟨w, List.mem_append_left _ hw, hj⟩
  | stop => exact h.move rfl (fun _ => Iff.rfl) fun e he => ⟨he, id⟩
  | clear => exact absurd rfl ha
  | submit sub => exact h.submit sub
  | enter hk =>
      refine h.setWorker hk fun j => ?_
      split_ifs <;> exact Iff.rfl
  | @pop k tasks i rest hk hqueue hsize =>
      refine h.move rfl (fun j => ?_) fun e he => ?_
      · rw [live_set hk rfl, live_iff hk, hqueue]
        simp only [popped, Worker.tasks, List.mem_append, List.mem_cons]
        tauto
      · obtain ⟨hmem, hne⟩ := List.mem_filter.mp he
        refine ⟨hmem, fun hin => ?_⟩
        rw [hqueue] at hin
        exact (List.mem_cons.mp hin).resolve_left (of_decide_eq_true hne)
  | emptyBatch hk => exact h.setWorker hk fun j => Iff.rfl
  | startBatch hk =>
      have hperm := grouped_perm (hq.inHand _ (List.mem_of_getElem? hk))
      exact h.setWorker hk fun j => hperm.mem_iff
  | runGroup faults commitFault hk => exact h.runGroup hq hk faults commitFault

/-- Whether an object was put into the heap is decided when it is created. -/
theorem step_enqueued {a : Action V} (hs : q.step models a = some q') {t : WriteTask V}
    (ht : q.objects[j]? = some t) : ∃ t', q'.objects[j]? = some t' ∧ t'.enqueued = t.enqueued := by
  have hlen : j < q.objects.length := (List.getElem?_eq_some_iff.mp ht).1
  have hcreated : ∀ sub : Submission V, (q.created sub).objects[j]? = some t := fun sub =>
    (List.getElem?_append_left hlen).trans ht
  cases stepped hs with
  | start =>
      unfold startWorkers
      split_ifs <;> exact ⟨t, ht, rfl⟩
  | stop => exact ⟨t, ht, rfl⟩
  | clear => exact ⟨t, ht, rfl⟩
  | submit sub =>
      have hout := submitted q sub
      generalize q.submit sub = out at hout ⊢
      cases hout with
      | notRunning => exact ⟨t, ht, rfl⟩
      | @merged key i =>
          have hmod := List.getElem?_modify (fun t : WriteTask V => t.merge sub.write.data) i
            (q.created sub).objects j
          rw [hcreated sub] at hmod
          refine ⟨_, hmod, ?_⟩
          split_ifs <;> rfl
      | full => exact ⟨t, hcreated sub, rfl⟩
      | accepted =>
          have hmod := List.getElem?_modify (fun t : WriteTask V => { t with enqueued := true })
            q.objects.length (q.created sub).objects j
          rw [hcreated sub] at hmod
          refine ⟨_, hmod, ?_⟩
          have hne : q.objects.length ≠ j := by omega
          simp [hne]
  | enter => exact ⟨t, ht, rfl⟩
  | pop => exact ⟨t, ht, rfl⟩
  | emptyBatch => exact ⟨t, ht, rfl⟩
  | startBatch => exact ⟨t, ht, rfl⟩
  | @runGroup k model is rest faults commitFault hk =>
      obtain ⟨ho, -⟩ := afterGroup_spec
        (q.executeModelBatch models model is faults commitFault) k rest
      have he : Evolves is q _ := .executeModelBatch models model faults commitFault
      obtain ⟨t', ht', hsteps, -⟩ := he.object ht
      rw [ho]
      exact ⟨t', ht', WriteTask.enqueued_steps hsteps⟩

theorem exec_enqueued {as : List (Action V)} (hrun : PartialRun.exec (step models) q as = some q')
    {t : WriteTask V} (ht : q.objects[j]? = some t) :
    ∃ t', q'.objects[j]? = some t' ∧ t'.enqueued = t.enqueued := by
  refine PartialRun.invariant_of_step
    (I := fun (u : AsyncWriteQueue V) => ∃ t', u.objects[j]? = some t' ∧ t'.enqueued = t.enqueued) ?_ ⟨t, ht, rfl⟩ hrun
  rintro u a u' ⟨t₁, ht₁, he₁⟩ hs
  obtain ⟨t₂, ht₂, he₂⟩ := step_enqueued hs ht₁
  exact ⟨t₂, ht₂, he₂.trans he₁⟩

/-! ### The workers end -/

/-- Every worker has left its loop; then `stop(wait=True)` returns. -/
def AllStopped (q : AsyncWriteQueue V) : Prop := ∀ w ∈ q.workers, w = .stopped

instance (q : AsyncWriteQueue V) : Decidable q.AllStopped :=
  inferInstanceAs (Decidable (∀ w ∈ q.workers, w = .stopped))

/-- Nobody is left to work on a heap that is not empty. -/
structure Stranded (q : AsyncWriteQueue V) : Prop where
  notRunning : q.running = false
  stopped : q.AllStopped
  left : q.queue ≠ []

/-- Somebody is left to work on the heap, or it is empty. -/
structure Stopping (q : AsyncWriteQueue V) : Prop where
  notRunning : q.running = false
  drained : q.AllStopped → q.queue = []

/-- The last worker to leave its loop leaves an empty heap, and so does `stop` when there
is no worker. -/
def leavesNothing (q : AsyncWriteQueue V) : Action V → Prop
  | .stop => q.AllStopped → q.queue = []
  | .enter k => (q.setWorker k .stopped).AllStopped → q.queue = []
  | _ => True

instance (q : AsyncWriteQueue V) (a : Action V) : Decidable (q.leavesNothing a) :=
  match a with
  | .stop => inferInstanceAs (Decidable (q.AllStopped → q.queue = []))
  | .enter k => inferInstanceAs (Decidable ((q.setWorker k .stopped).AllStopped → q.queue = []))
  | .start | .clear | .submit _ | .pop _ | .startBatch _ | .runGroup _ _ _ => .isTrue trivial

theorem not_allStopped {w : Worker} (hk : q.workers[k]? = some w) (hw : w ≠ .stopped) :
    ¬ q.AllStopped := fun h => hw (h w (List.mem_of_getElem? hk))

theorem workers_set {w w' : Worker} (hk : q.workers[k]? = some w) :
    (q.workers.set k w')[k]? = some w' :=
  List.getElem?_set_self (List.getElem?_eq_some_iff.mp hk).1

theorem Stopping.step {a : Action V} (h : q.Stopping) (hstart : a ≠ .start)
    (hs : q.step models a = some q') :
    q.leavesNothing a ∧ q'.Stopping ∨ ¬ q.leavesNothing a ∧ q'.Stranded := by
  cases stepped hs with
  | start => exact absurd rfl hstart
  | stop => exact .inl ⟨h.drained, rfl, h.drained⟩
  | clear => exact .inl ⟨trivial, h.notRunning, fun _ => rfl⟩
  | submit sub =>
      have hsame : q.submit sub = (q, .error "Write queue is not running") := by
        rw [submit, h.notRunning]
        rfl
      rw [hsame]
      exact .inl ⟨trivial, h⟩
  | @enter k hk =>
      rw [h.notRunning]
      by_cases hleft : q.leavesNothing (.enter k)
      · exact .inl ⟨hleft, h.notRunning, hleft⟩
      · have hstranded := hleft
        rw [leavesNothing, Classical.not_imp] at hstranded
        exact .inr ⟨hleft, h.notRunning, hstranded.1, hstranded.2⟩
  | pop hk =>
      exact .inl ⟨trivial, h.notRunning, fun hall =>
        absurd hall (not_allStopped (workers_set hk) (by simp))⟩
  | emptyBatch hk =>
      exact .inl ⟨trivial, h.notRunning, fun hall =>
        absurd hall (not_allStopped (workers_set hk) (by simp))⟩
  | startBatch hk =>
      exact .inl ⟨trivial, h.notRunning, fun hall =>
        absurd hall (not_allStopped (workers_set hk) (by simp))⟩
  | @runGroup k model is rest faults commitFault hk =>
      have he : Evolves is q (q.executeModelBatch models model is faults commitFault) :=
        .executeModelBatch models model faults commitFault
      have hrunning := (Touches.executeModelBatch (q := q) models model is faults commitFault).running
      rw [← he.workers] at hk
      rw [h.notRunning] at hrunning
      cases rest with
      | nil =>
          exact .inl ⟨trivial, hrunning, fun hall =>
            absurd hall (not_allStopped (workers_set hk) (by simp))⟩
      | cons g rest =>
          exact .inl ⟨trivial, hrunning, fun hall =>
            absurd hall (not_allStopped (workers_set hk) (by simp))⟩

theorem Stranded.step {a : Action V} (h : q.Stranded) (hstart : a ≠ .start) (hclear : a ≠ .clear)
    (hs : q.step models a = some q') : q'.Stranded := by
  cases stepped hs with
  | start => exact absurd rfl hstart
  | stop => exact ⟨rfl, h.stopped, h.left⟩
  | clear => exact absurd rfl hclear
  | submit sub =>
      have hsame : q.submit sub = (q, .error "Write queue is not running") := by
        rw [submit, h.notRunning]
        rfl
      rw [hsame]
      exact h
  | enter hk => exact absurd h.stopped (not_allStopped hk (by simp))
  | pop hk => exact absurd h.stopped (not_allStopped hk (by simp))
  | emptyBatch hk => exact absurd h.stopped (not_allStopped hk (by simp))
  | startBatch hk => exact absurd h.stopped (not_allStopped hk (by simp))
  | runGroup _ _ hk => exact absurd h.stopped (not_allStopped hk (by simp))

theorem Stranded.exec {as : List (Action V)} (h : q.Stranded) (hstart : .start ∉ as)
    (hclear : .clear ∉ as) (hrun : PartialRun.exec (AsyncWriteQueue.step models) q as = some q') :
    q'.Stranded := by
  refine PartialRun.invariant_of_along (P := fun _ a => a ≠ .start ∧ a ≠ .clear)
    (fun _ _ _ h ha hs => h.step ha.1 ha.2 hs) h ?_ hrun
  refine PartialRun.along_iff_split.mpr fun pre a post has _ _ => ⟨?_, ?_⟩
  · rintro rfl
    exact hstart (by simp [has])
  · rintro rfl
    exact hclear (by simp [has])

/-- From `stop` to its return: the heap is empty exactly if the last worker left it so. -/
theorem Stopping.drained_iff {as : List (Action V)} (h : q.Stopping) (hstart : .start ∉ as)
    (hclear : .clear ∉ as) (hrun : PartialRun.exec (AsyncWriteQueue.step models) q as = some q')
    (hall : q'.AllStopped) : q'.queue = [] ↔ PartialRun.Along (AsyncWriteQueue.step models) leavesNothing q as := by
  induction as generalizing q with
  | nil =>
      cases Option.some.inj hrun
      exact ⟨fun _ => trivial, fun _ => h.drained hall⟩
  | cons a as ih =>
      rw [List.mem_cons, not_or] at hstart hclear
      obtain ⟨u, hu, hrun⟩ := PartialRun.exec_cons_eq_some.mp hrun
      rcases h.step (Ne.symm hstart.1) hu with ⟨hleft, hstopping⟩ | ⟨hleft, hstranded⟩
      · rw [ih hstopping hstart.2 hclear.2 hrun]
        exact ⟨fun hrest => ⟨hleft, fun v hv => Option.some.inj (hu.symm.trans hv) ▸ hrest⟩,
          fun halong => halong.2 u hu⟩
      · have hend := hstranded.exec hstart.2 hclear.2 hrun
        exact ⟨fun hempty => absurd hempty hend.left, fun halong => absurd halong.1 hleft⟩

/-- Some submit of the run returned task `j`. -/
def Accepted (models : Models V) (q : AsyncWriteQueue V) (as : List (Action V)) (j : ℕ) : Prop :=
  ∃ pre sub post u, as = pre ++ .submit sub :: post ∧
    PartialRun.exec (step models) q pre = some u ∧ (u.submit sub).2 = .ok j

/-- A submit is absorbed into tasks of the heap only. -/
def absorbsLive (q : AsyncWriteQueue V) : Action V → Prop
  | .submit sub => q.running = true →
      ∀ key ∈ sub.key, ∀ j ∈ q.mergeCache.lookup key, j ∈ q.queue
  | _ => True

instance (q : AsyncWriteQueue V) (a : Action V) : Decidable (q.absorbsLive a) :=
  match a with
  | .submit sub => inferInstanceAs (Decidable (q.running = true →
      ∀ key ∈ sub.key, ∀ j ∈ q.mergeCache.lookup key, j ∈ q.queue))
  | .start | .stop | .clear | .enter _ | .pop _ | .startBatch _ | .runGroup _ _ _ => .isTrue trivial

/-- The task that a submit returns was put into the heap, or nobody will ever see it. -/
theorem Placed.returned (h : q.Placed) {sub : Submission V} (hj : (q.submit sub).2 = .ok j) :
    ∃ t, (q.submit sub).1.objects[j]? = some t ∧
      (t.enqueued = true ↔ q.absorbsLive (.submit sub)) := by
  have hout := submitted q sub
  generalize q.submit sub = out at hout hj ⊢
  cases hout with
  | notRunning => cases hj
  | full => cases hj
  | @merged key _ hrun hkey hlook =>
      cases hj
      have habsorbs : q.absorbsLive (.submit sub) ↔ j ∈ q.queue := by
        simp [absorbsLive, hrun, hkey, hlook]
      have hcached := h.cached (key, j) (mem_of_lookup_cache hlook)
      have hobject : ∃ t, q.objects[j]? = some t ∧ (t.enqueued = true ↔ j ∈ q.queue) := by
        by_cases hqueue : j ∈ q.queue
        · obtain ⟨t, ht, hen⟩ := h.live j (.inl hqueue)
          exact ⟨t, ht, iff_of_true hen hqueue⟩
        · obtain ⟨t, ht, hen⟩ := hcached.resolve_left hqueue
          refine ⟨t, ht, iff_of_false ?_ hqueue⟩
          simp [hen]
      obtain ⟨t, ht, hen⟩ := hobject
      rw [habsorbs, ← hen]
      have hcreated : (q.created sub).objects[j]? = some t :=
        (List.getElem?_append_left (List.getElem?_eq_some_iff.mp ht).1).trans ht
      exact ⟨_, modify_object hcreated fun t => t.merge sub.write.data, Iff.rfl⟩
  | accepted hrun hkey hlt =>
      cases hj
      have hnew : (q.cached sub).objects[q.objects.length]? =
          some (sub.task (q.objects.length + 1)) := List.getElem?_concat_length
      refine ⟨_, modify_object hnew fun t => { t with enqueued := true },
        iff_of_true rfl fun _ key hk i hi => ?_⟩
      rw [hkey key hk] at hi
      cases hi

/-- What `stop(wait=True)` is for. -/
structure DrainedBy (models : Models V) (q₀ : AsyncWriteQueue V) (before : List (Action V))
    (q : AsyncWriteQueue V) : Prop where
  heap : q.queue = []
  settled : ∀ j, Accepted models q₀ before j → ∃ t, q.objects[j]? = some t ∧ t.Settled

/-- In every run up to the return of a `stop(wait=True)`: the heap is empty and every
accepted task has its outcome exactly if no submit was absorbed into a task outside the
heap and the last worker found the heap empty. -/
theorem stop_drains_iff {maxQueueSize batchSize maxWorkers : ℕ} {db : String → Table V}
    {before during : List (Action V)}
    (hrun : PartialRun.exec (step models) (initial maxQueueSize batchSize maxWorkers db)
      (before ++ .stop :: during) = some q)
    (hclear : .clear ∉ before ++ during) (hstart : .start ∉ during) (hall : q.AllStopped) :
    DrainedBy models (initial maxQueueSize batchSize maxWorkers db) before q ↔
      PartialRun.Along (step models) absorbsLive (initial maxQueueSize batchSize maxWorkers db)
        before ∧
      ∀ u, PartialRun.exec (step models) (initial maxQueueSize batchSize maxWorkers db) before =
        some u → PartialRun.Along (step models) leavesNothing u (.stop :: during) := by
  rw [List.mem_append, not_or] at hclear
  obtain ⟨u, hu, hrest⟩ := PartialRun.exec_append_eq_some.mp hrun
  obtain ⟨u', hu', hduring⟩ := PartialRun.exec_cons_eq_some.mp hrest
  cases hu'
  have hinit := placed_initial maxQueueSize batchSize maxWorkers db
  have hinv : ∀ as v, .clear ∉ as → PartialRun.exec (step models)
      (initial maxQueueSize batchSize maxWorkers db) as = some v → v.Placed ∧ v.Traced := by
    intro as v hno hv
    refine PartialRun.invariant_of_along (I := fun (v : AsyncWriteQueue V) => v.Placed ∧ v.Traced)
      (P := fun _ a => a ≠ .clear) (fun _ _ _ h ha hs => ⟨h.1.step h.2 ha hs, h.2.step hs⟩)
      ⟨hinit, traced_initial maxQueueSize batchSize maxWorkers db⟩ ?_ hv
    refine PartialRun.along_iff_split.mpr fun pre a post has _ _ => ?_
    rintro rfl
    exact hno (by simp [has])
  have hend : q.Placed := by
    refine (hinv (before ++ .stop :: during) q ?_ hrun).1
    simp [hclear.1, hclear.2]
  -- the heap
  have hheap : q.queue = [] ↔ PartialRun.Along (step models) leavesNothing u (.stop :: during) := by
    by_cases hleft : u.leavesNothing .stop
    · have hstopping : ({ u with running := false } : AsyncWriteQueue V).Stopping := ⟨rfl, hleft⟩
      rw [hstopping.drained_iff hstart hclear.2 hduring hall, PartialRun.along_cons]
      exact ⟨fun h => ⟨hleft, fun v hv => Option.some.inj hv ▸ h⟩, fun h => h.2 _ rfl⟩
    · have hstranded : ({ u with running := false } : AsyncWriteQueue V).Stranded := by
        have hboth := hleft
        rw [leavesNothing, Classical.not_imp] at hboth
        exact ⟨rfl, hboth.1, hboth.2⟩
      exact ⟨fun hempty => absurd hempty (hstranded.exec hstart hclear.2 hduring).left,
        fun h => absurd h.1 hleft⟩
  -- the tasks that submits returned
  have htask : ∀ pre sub post v, before = pre ++ .submit sub :: post →
      PartialRun.exec (step models) (initial maxQueueSize batchSize maxWorkers db) pre = some v →
      ∀ j, (v.submit sub).2 = .ok j → ∃ t, q.objects[j]? = some t ∧
        (t.enqueued = true ↔ v.absorbsLive (.submit sub)) := by
    intro pre sub post v hsplit hv j hj
    have hplaced : v.Placed := by
      refine (hinv pre v (fun hmem => hclear.1 ?_) hv).1
      rw [hsplit]
      exact List.mem_append_left _ hmem
    obtain ⟨t, ht, hiff⟩ := hplaced.returned hj
    have htail : PartialRun.exec (step models) (v.submit sub).1 (post ++ .stop :: during) =
        some q := by
      rw [hsplit, List.append_assoc, PartialRun.exec_append_eq_some] at hrun
      obtain ⟨v', hv', hrun⟩ := hrun
      cases hv.symm.trans hv'
      exact hrun
    obtain ⟨t', ht', hen⟩ := exec_enqueued htail ht
    exact ⟨t', ht', hen ▸ hiff⟩
  constructor
  · intro hdrained
    refine ⟨PartialRun.along_iff_split.mpr fun pre a post hsplit v hv => ?_, fun u' hu' => ?_⟩
    · cases a with
      | submit sub =>
          intro hrunning key hkey j hj
          have hreturn : (v.submit sub).2 = .ok j := by
            rw [Option.mem_def] at hkey hj
            simp [submit, hrunning, hkey, hj]
          obtain ⟨t, ht, hiff⟩ := htask pre sub post v hsplit hv j hreturn
          obtain ⟨t', ht', hsettled⟩ := hdrained.settled j ⟨pre, sub, post, v, hsplit, hv, hreturn⟩
          cases ht.symm.trans ht'
          have hen : t.enqueued = true := by
            by_contra hne
            exact hend.waiting j t ht (Bool.eq_false_iff.mpr hne) hsettled
          exact hiff.mp hen hrunning key hkey j hj
      | _ => trivial
    · cases hu.symm.trans hu'
      exact hheap.mp hdrained.heap
  · rintro ⟨habsorbs, hleaves⟩
    have hempty := hheap.mpr (hleaves u hu)
    refine ⟨hempty, fun j hj => ?_⟩
    obtain ⟨pre, sub, post, v, hsplit, hv, hreturn⟩ := hj
    obtain ⟨t, ht, hiff⟩ := htask pre sub post v hsplit hv j hreturn
    have hlive := PartialRun.along_iff_split.mp habsorbs pre _ post hsplit v hv
    refine ⟨t, ht, (hend.settled j t ht (hiff.mpr hlive)).resolve_left ?_⟩
    rintro (hqueue | ⟨w, hw, hin⟩)
    · rw [hempty] at hqueue
      cases hqueue
    · rw [hall w hw] at hin
      cases hin

/-- A batch that is done before `stop` is clear of it. -/
theorem stop_after_batch :
    ∃ q, PartialRun.exec (step plainModels) (initial 10 10 1 oneItem)
        (([.start, .submit { write := nameItem 5, callback := true }] ++ oneBatch [] none) ++
          .stop :: [.enter 0]) = some q ∧
      DrainedBy plainModels (initial 10 10 1 oneItem)
        ([.start, .submit { write := nameItem 5, callback := true }] ++ oneBatch [] none) q := by
  have hrun : (PartialRun.exec (step plainModels) (initial 10 10 1 oneItem)
      (([.start, .submit { write := nameItem 5, callback := true }] ++ oneBatch [] none) ++
        .stop :: [.enter 0])).map (fun q => decide q.AllStopped) = some true := by decide +kernel
  obtain ⟨q, hq, hall⟩ := Option.map_eq_some_iff.mp hrun
  refine ⟨q, hq, (stop_drains_iff hq (by simp [oneBatch]) (by simp)
    (of_decide_eq_true hall)).mpr ⟨by decide +kernel, fun u hu => ?_⟩⟩
  have hleaves : (PartialRun.exec (step plainModels) (initial 10 10 1 oneItem)
      ([.start, .submit { write := nameItem 5, callback := true }] ++ oneBatch [] none)).map
      (fun u => decide (PartialRun.Along (step plainModels) leavesNothing u [.stop, .enter 0])) =
      some true := by decide +kernel
  rw [hu] at hleaves
  exact of_decide_eq_true (Option.some.inj hleaves)

/-- A task that is submitted while the worker is at the test of `_running` stays in the heap
when `stop` comes next. -/
theorem task_left_at_stop :
    ∃ q t, PartialRun.exec (step plainModels) (initial 10 10 1 oneItem)
        ([.start, .submit { write := nameItem 5, callback := true }] ++ .stop :: [.enter 0]) =
          some q ∧
      q.AllStopped ∧ q.queue = [0] ∧ q.objects = [t] ∧ t.told = [] ∧
      ¬ DrainedBy plainModels (initial 10 10 1 oneItem)
        [.start, .submit { write := nameItem 5, callback := true }] q := by
  have hrun : (PartialRun.exec (step plainModels) (initial 10 10 1 oneItem)
      ([.start, .submit { write := nameItem 5, callback := true }] ++ .stop :: [.enter 0])).map
        (fun q => (decide q.AllStopped, q.queue, q.objects.map WriteTask.told)) =
      some (true, [0], [[]]) := by decide +kernel
  obtain ⟨q, hq, hout⟩ := Option.map_eq_some_iff.mp hrun
  simp only [Prod.mk.injEq] at hout
  obtain ⟨hall, hqueue, htold⟩ := hout
  obtain ⟨t, hobj, ht⟩ := List.map_eq_singleton_iff.mp htold
  refine ⟨q, t, hq, of_decide_eq_true hall, hqueue, hobj, ht, fun hdrained => ?_⟩
  rw [hdrained.heap] at hqueue
  cases hqueue

end AsyncWriteQueue

end SmartMedia.WriteQueue
