import SmartMedia.WriteQueue.Retry

/-!
# Does the merge cache refer to tasks that run?

A task leaves the merge cache when it leaves the heap, and a retried task is never put
back into the cache. But `submit` caches a new merge key before it looks whether the heap
has room, and does not take the entry back when it raises. Later submits with the key
are then absorbed into a task that no worker will ever see.
-/
set_option linter.unusedSectionVars false

namespace SmartMedia.WriteQueue

universe u

variable {V : Type u} [DecidableEq V]

namespace AsyncWriteQueue
variable {models : Models V} {q q' : AsyncWriteQueue V} {sub : Submission V} {i j : ℕ}

/-! ### A worker takes nothing out of the heap but by its pop -/

/-- The writes that an execution is made of. -/
inductive Touch (q : AsyncWriteQueue V) : AsyncWriteQueue V → Prop
  | modify (i : ℕ) (f : WriteTask V → WriteTask V) : Touch q (q.modify i f)
  | push (i : ℕ) : Touch q (q.push i)
  | metrics (metrics : WriteQueueMetrics) : Touch q { q with metrics := metrics }
  | setTable (model : String) (table : Table V) : Touch q (q.setTable model table)

/-- One after the other. -/
def Touches (q q' : AsyncWriteQueue V) : Prop := Relation.ReflTransGen Touch q q'

namespace Touches

theorem refl : Touches q q := Relation.ReflTransGen.refl

theorem trans {q'' : AsyncWriteQueue V} (h : Touches q q') (h' : Touches q' q'') : Touches q q'' :=
  Relation.ReflTransGen.trans h h'

theorem single (h : Touch q q') : Touches q q' := Relation.ReflTransGen.single h

theorem subset (h : Touches q q') : q.queue ⊆ q'.queue := by
  induction h with
  | refl => exact List.Subset.refl _
  | tail _ hstep ih =>
      refine List.Subset.trans ih ?_
      cases hstep with
      | push => exact fun _ hj => (List.mem_orderedInsert _).mpr (.inr hj)
      | modify => exact List.Subset.refl _
      | metrics => exact List.Subset.refl _
      | setTable => exact List.Subset.refl _

theorem running (h : Touches q q') : q'.running = q.running := by
  induction h with
  | refl => rfl
  | tail _ hstep ih => cases hstep <;> exact ih

theorem batchSize (h : Touches q q') : q'.batchSize = q.batchSize := by
  induction h with
  | refl => rfl
  | tail _ hstep ih => cases hstep <;> exact ih

theorem failTask (e : String) : Touches q (q.failTask i e) :=
  (single (.modify i _)).trans (single (.metrics _))

theorem completeTask : Touches q (q.completeTask i) :=
  (single (.modify i _)).trans (single (.metrics _))

theorem retryTask (e : String) : Touches q (q.retryTask i e) := by
  have hcount : Touches q (q.modify i WriteTask.countRetry) := single (.modify i _)
  unfold AsyncWriteQueue.retryTask
  dsimp only
  split
  · exact hcount
  · split_ifs
    · exact hcount.trans (failTask e)
    · exact hcount.trans ((single (.modify i _)).trans (single (.push i)))

theorem runTask (s : Session V) (fault : Option Fault) :
    Touches q (runTask models q s i fault).1 := by
  unfold AsyncWriteQueue.runTask
  split
  · exact refl
  · dsimp only
    split
    · exact (single (.modify i _)).trans completeTask
    · exact (single (.modify i _)).trans (retryTask _)

theorem runTasks (models : Models V) (s : Session V) (is : List ℕ) (faults : List (Option Fault)) :
    Touches q (runTasks models q s is faults).1 := by
  induction is generalizing q s faults with
  | nil => exact refl
  | cons i is ih => exact (runTask s _).trans (ih _ _)

theorem foldl {g : AsyncWriteQueue V → ℕ → AsyncWriteQueue V} (hg : ∀ q i, Touches q (g q i))
    (is : List ℕ) : Touches q (is.foldl g q) := by
  induction is generalizing q with
  | nil => exact refl
  | cons i is ih => exact (hg q i).trans ih

theorem closeSession (models : Models V) (s : Session V) (model : String) (is : List ℕ)
    (commitFault : Option String) :
    Touches q (q.closeSession models s model is commitFault) := by
  have hmark : ∀ js, Touches q (q.markCommitted js) := foldl fun q i => single (.modify i _)
  unfold AsyncWriteQueue.closeSession
  split
  · exact (hmark _).trans ((single (.setTable model _)).trans (single (.metrics _)))
  · exact (hmark _).trans ((single (.setTable model _)).trans
      (foldl (fun q i => retryTask _) is))

theorem executeModelBatch (models : Models V) (model : String) (is : List ℕ)
    (faults : List (Option Fault)) (commitFault : Option String) :
    Touches q (q.executeModelBatch models model is faults commitFault) := by
  unfold AsyncWriteQueue.executeModelBatch
  split_ifs
  · exact (runTasks models _ is faults).trans (closeSession models _ model is commitFault)
  · exact foldl (fun q i => failTask _) is

end Touches

/-! ### Live entries -/

/-- Every entry of the merge cache refers to a task in the heap. -/
def CacheLive (q : AsyncWriteQueue V) : Prop := ∀ e ∈ q.mergeCache, e.2 ∈ q.queue

/-- A new merge key meets a full heap. -/
def LeavesGhost (q : AsyncWriteQueue V) (sub : Submission V) : Prop :=
  q.running = true ∧ q.maxQueueSize ≤ q.queue.length ∧
    ∃ key, sub.key = some key ∧ q.mergeCache.lookup key = none

instance (q : AsyncWriteQueue V) (sub : Submission V) : Decidable (q.LeavesGhost sub) :=
  match h : sub.key with
  | none => .isFalse fun hghost => by
      obtain ⟨-, -, key, hkey, -⟩ := hghost
      exact absurd (h.symm.trans hkey) (Option.some_ne_none key).symm
  | some key =>
      decidable_of_iff (q.running = true ∧ q.maxQueueSize ≤ q.queue.length ∧
        q.mergeCache.lookup key = none) (by simp [LeavesGhost, h])

/-- What a call of `submit` may do to the heap and the merge cache. -/
structure SubmitsCleanly (q : AsyncWriteQueue V) (sub : Submission V) : Prop where
  /-- What raises leaves no trace. -/
  refused : ∀ e, (q.submit sub).2 = .error e → (q.submit sub).1.queue = q.queue ∧
    (q.submit sub).1.mergeCache = q.mergeCache ∧ (q.submit sub).1.metrics = q.metrics
  /-- What returns is in the heap, in a task of its own or absorbed. -/
  returned : ∀ j, (q.submit sub).2 = .ok j → j ∈ (q.submit sub).1.queue

/-- The steps that are not such a submit. -/
def keepsCache (q : AsyncWriteQueue V) : Action V → Prop
  | .submit sub => ¬ q.LeavesGhost sub
  | _ => True

instance (q : AsyncWriteQueue V) (a : Action V) : Decidable (q.keepsCache a) :=
  match a with
  | .submit sub => inferInstanceAs (Decidable (¬ q.LeavesGhost sub))
  | .start | .stop | .clear | .enter _ | .pop _ | .startBatch _ | .runGroup _ _ _ => .isTrue trivial

theorem mem_of_lookup_cache {key : String} (h : q.mergeCache.lookup key = some j) :
    (key, j) ∈ q.mergeCache := by
  obtain ⟨l₁, l₂, heq, -⟩ := List.lookup_eq_some_iff.mp h
  rw [heq]
  exact List.mem_append_right _ List.mem_cons_self

/-- No new key: the cache is what it was. -/
theorem cached_of_no_ghost (hrun : q.running = true) (hfull : q.maxQueueSize ≤ q.queue.length)
    (hkey : ∀ key, sub.key = some key → q.mergeCache.lookup key = none)
    (hghost : ¬ q.LeavesGhost sub) : (q.cached sub).mergeCache = q.mergeCache := by
  cases hsub : sub.key with
  | none => simp [cached, created, hsub]
  | some key => exact absurd ⟨hrun, hfull, key, hsub, hkey key hsub⟩ hghost

theorem CacheLive.submit (h : q.CacheLive) (hghost : ¬ q.LeavesGhost sub) :
    (q.submit sub).1.CacheLive := by
  have hout := q.submitted sub
  generalize q.submit sub = out at hout ⊢
  cases hout with
  | notRunning hrun => exact h
  | merged hrun hkey hlook => exact h
  | full hrun hkey hfull =>
      intro e he
      rw [cached_of_no_ghost hrun hfull hkey hghost] at he
      exact h e he
  | accepted hrun hkey hlt =>
      intro e he
      refine (List.mem_orderedInsert _).mpr ?_
      rcases List.mem_append.mp he with he | he
      · exact .inr (h e he)
      · rw [Option.mem_toList, Option.map_eq_some_iff] at he
        obtain ⟨key, -, rfl⟩ := he
        exact .inl rfl

theorem CacheLive.step {a : Action V} (h : q.CacheLive) (hk : q.keepsCache a)
    (hs : q.step models a = some q') : q'.CacheLive := by
  cases stepped hs with
  | start =>
      unfold startWorkers
      split_ifs <;> exact h
  | stop => exact h
  | clear => exact fun e he => absurd he List.not_mem_nil
  | submit sub => exact h.submit hk
  | enter => exact h
  | pop hw hq hsize =>
      intro e he
      obtain ⟨hmem, hne⟩ := List.mem_filter.mp he
      have hin := h e hmem
      rw [hq] at hin
      exact (List.mem_cons.mp hin).resolve_left (of_decide_eq_true hne)
  | emptyBatch => exact h
  | startBatch => exact h
  | @runGroup k model is rest faults commitFault hw =>
      obtain ⟨-, hqueue, hcache, -⟩ := afterGroup_spec
        (q.executeModelBatch models model is faults commitFault) k rest
      have hevolves : Evolves is q _ := .executeModelBatch models model faults commitFault
      intro e he
      rw [hcache, hevolves.mergeCache] at he
      rw [hqueue]
      exact (Touches.executeModelBatch models model is faults commitFault).subset (h e he)

theorem CacheLive.submitsCleanly_iff (h : q.CacheLive) :
    q.SubmitsCleanly sub ↔ ¬ q.LeavesGhost sub := by
  constructor
  · intro hclean hghost
    obtain ⟨hrun, hfull, key, hkey, hlook⟩ := hghost
    have hout := q.submitted sub
    generalize hq' : q.submit sub = out at hout
    cases hout with
    | notRunning hstop => exact absurd hrun (Bool.not_eq_true _ ▸ hstop)
    | merged _ hkey' hlook' =>
        rw [hkey] at hkey'
        cases hkey'
        exact absurd (hlook.symm.trans hlook') (Option.some_ne_none _).symm
    | accepted _ _ hlt => omega
    | full =>
        obtain ⟨-, hcache, -⟩ := hclean.refused "Write queue is full" (by rw [hq'])
        rw [hq'] at hcache
        have hlen := congrArg List.length hcache
        simp [cached, hkey] at hlen
  · intro hghost
    have hout := q.submitted sub
    constructor
    · intro e he
      generalize q.submit sub = out at hout he ⊢
      cases hout with
      | notRunning => exact ⟨rfl, rfl, rfl⟩
      | full hrun hkey hfull => exact ⟨rfl, cached_of_no_ghost hrun hfull hkey hghost, rfl⟩
      | merged => cases he
      | accepted => cases he
    · intro j hj
      generalize q.submit sub = out at hout hj ⊢
      cases hout with
      | notRunning => cases hj
      | full => cases hj
      | merged _ _ hlook =>
          cases hj
          exact h _ (mem_of_lookup_cache hlook)
      | accepted =>
          cases hj
          exact (List.mem_orderedInsert _).mpr (.inl rfl)

/-- Every call of `submit` in the run is clean, and in every state the merge cache is
live. -/
def CleanRun (models : Models V) (q : AsyncWriteQueue V) (as : List (Action V)) : Prop :=
  PartialRun.Along (step models) (fun q a => ∀ sub, a = .submit sub → q.SubmitsCleanly sub) q as ∧
    PartialRun.Throughout (step models) CacheLive q as

theorem keepsCache_iff {a : Action V} :
    q.keepsCache a ↔ ∀ sub, a = .submit sub → ¬ q.LeavesGhost sub := by
  cases a with
  | submit sub =>
      exact ⟨fun h sub' hsub => (by cases hsub; exact h), fun h => h sub rfl⟩
  | _ => exact ⟨fun _ sub hsub => (by cases hsub), fun _ => trivial⟩

/-- A run is clean exactly if no submit in it brings a new merge key to a full heap. -/
theorem cleanRun_iff (maxQueueSize batchSize maxWorkers : ℕ) (db : String → Table V)
    (as : List (Action V)) :
    CleanRun models (initial maxQueueSize batchSize maxWorkers db) as ↔
      PartialRun.Along (step models) keepsCache (initial maxQueueSize batchSize maxWorkers db)
        as := by
  have hinit : (initial maxQueueSize batchSize maxWorkers db).CacheLive :=
    fun e he => absurd he List.not_mem_nil
  constructor
  · rintro ⟨hclean, hlive⟩
    rw [PartialRun.along_iff_split] at hclean ⊢
    intro pre a post has u hu
    refine keepsCache_iff.mpr fun sub hsub => ?_
    have hu' : u.CacheLive := hlive pre (has ▸ List.prefix_append pre _) u hu
    exact hu'.submitsCleanly_iff.mp (hclean pre a post has u hu sub hsub)
  · intro hkeep
    have hlive : PartialRun.Throughout (step models) CacheLive
        (initial maxQueueSize batchSize maxWorkers db) as :=
      PartialRun.throughout_of_along (fun _ _ _ h hk hs => h.step hk hs) hinit hkeep
    refine ⟨?_, hlive⟩
    rw [PartialRun.along_iff_split] at hkeep ⊢
    intro pre a post has u hu sub hsub
    have hu' : u.CacheLive := hlive pre (has ▸ List.prefix_append pre _) u hu
    exact hu'.submitsCleanly_iff.mpr (keepsCache_iff.mp (hkeep pre a post has u hu) sub hsub)

/-- A write that gives row 7 of `Item` a name. -/
def nameItem (name : ℕ) : Write ℕ := ⟨.update, "Item", kwargs [("id", 7), ("name", name)]⟩

/-- A heap for one task: the second submit raises and leaves its merge key behind. When the
heap is empty again, the third submit with the key is told the id of the refused task,
and nothing is there to run. -/
theorem refused_key_absorbs :
    (∃ q, PartialRun.exec (step plainModels) (initial 1 10 1 oneItem)
        [.start, .submit { write := nameItem 2 }] = some q ∧
      (q.submit { write := nameItem 3, mergeKey := some "item-7" }).2 =
        .error "Write queue is full" ∧
      (q.submit { write := nameItem 3, mergeKey := some "item-7" }).1.mergeCache ≠ q.mergeCache ∧
      ¬ (q.submit { write := nameItem 3, mergeKey := some "item-7" }).1.CacheLive) ∧
    (∃ q, PartialRun.exec (step plainModels) (initial 1 10 1 oneItem)
        ([.start, .submit { write := nameItem 2 },
          .submit { write := nameItem 3, mergeKey := some "item-7" }] ++ oneBatch [] none) = some q ∧
      (q.submit { write := nameItem 4, mergeKey := some "item-7" }).2 = .ok 1 ∧
      (q.submit { write := nameItem 4, mergeKey := some "item-7" }).1.queue = []) ∧
    ¬ CleanRun plainModels (initial 1 10 1 oneItem) [.start, .submit { write := nameItem 2 },
      .submit { write := nameItem 3, mergeKey := some "item-7" }] := by
  refine ⟨?_, ?_, fun hclean => ?_⟩
  · have hrun : (PartialRun.exec (step plainModels) (initial 1 10 1 oneItem)
        [.start, .submit { write := nameItem 2 }]).map (fun q =>
          let out := q.submit { write := nameItem 3, mergeKey := some "item-7" }
          (out.2, q.mergeCache, out.1.mergeCache, out.1.queue)) =
        some (.error "Write queue is full", [], [("item-7", 1)], [0]) := by decide +kernel
    obtain ⟨q, hq, hout⟩ := Option.map_eq_some_iff.mp hrun
    simp only [Prod.mk.injEq] at hout
    obtain ⟨herror, hbefore, hafter, hqueue⟩ := hout
    refine ⟨q, hq, herror, ?_, fun hlive => ?_⟩
    · rw [hbefore, hafter]
      exact List.cons_ne_nil _ _
    · have hin := hlive ("item-7", 1) (hafter ▸ List.mem_singleton_self _)
      rw [hqueue] at hin
      simp at hin
  · have hrun : (PartialRun.exec (step plainModels) (initial 1 10 1 oneItem)
        ([.start, .submit { write := nameItem 2 },
          .submit { write := nameItem 3, mergeKey := some "item-7" }] ++ oneBatch [] none)).map
          (fun q =>
            let out := q.submit { write := nameItem 4, mergeKey := some "item-7" }
            (out.2, out.1.queue)) = some (.ok 1, []) := by decide +kernel
    obtain ⟨q, hq, hout⟩ := Option.map_eq_some_iff.mp hrun
    obtain ⟨hok, hqueue⟩ := Prod.mk.inj hout
    exact ⟨q, hq, hok, hqueue⟩
  · have hrun : (PartialRun.exec (step plainModels) (initial 1 10 1 oneItem)
        [.start, .submit { write := nameItem 2 },
          .submit { write := nameItem 3, mergeKey := some "item-7" }]).map
          (fun q => (q.mergeCache, q.queue)) = some ([("item-7", 1)], [0]) := by decide +kernel
    obtain ⟨q, hq, hout⟩ := Option.map_eq_some_iff.mp hrun
    obtain ⟨hcache, hqueue⟩ := Prod.mk.inj hout
    have hin := hclean.2 _ (List.prefix_refl _) q hq ("item-7", 1)
      (hcache ▸ List.mem_singleton_self _)
    rw [hqueue] at hin
    simp at hin

end AsyncWriteQueue

end SmartMedia.WriteQueue
