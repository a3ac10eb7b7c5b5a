import SmartMedia.Library.Reorder
import SmartMedia.WriteQueue.Applied
import SmartMedia.WriteQueue.Drain

/-!
# A drained queue as one sequence of writes

A batch splits by model, and a session inserts the added instances at its commit, after
everything else of the group. Apart from that the writes take effect in the order of the
heap, each as it would alone, if no UPSERT rolls back and none of its methods leaves an
instance behind.
-/
set_option linter.unusedSectionVars false

namespace SmartMedia.WriteQueue

universe u

variable {V : Type u} [DecidableEq V]

/-- The `create_or_update` of the model commits the session. -/
def Write.commitsItself (models : Models V) (w : Write V) : Bool :=
  w.operation = .upsert && (models.createOrUpdate w.modelClass).any CreateOrUpdate.commits

/-- An UPSERT commits itself or adds nothing or adds its own instance, and never rolls
back. -/
def Write.Steady (models : Models V) (w : Write V) : Prop :=
  w.operation = .upsert →
    match models.createOrUpdate w.modelClass with
    | some hook => hook.commits = true ∨ ∀ rows, (hook.run w.data rows).2 = []
    | none => models.constructorError w.modelClass w.data = none

/-- A turn changes the rows as the write would alone, or adds its instance. -/
inductive SteadyTurn (models : Models V) (w : Write V) (s s' : Session V) : Prop
  | changed : w.waits models = false → w.alone models s.rows = some s'.rows →
      s'.added = s.added → SteadyTurn models w s s'
  | added : w.waits models = true → (∀ table, w.alone models table = models.insertRow table w.data) →
      s'.rows = s.rows → s'.added = s.added ++ [w.data] → SteadyTurn models w s s'

/-- Nothing but assigned rows and added instances. -/
structure Session.Clean (s : Session V) : Prop where
  renamed : s.renamed = none
  broken : s.broken = none

section
variable {models : Models V} {i : ℕ} {w : Write V} {s : Session V}

theorem steadyTurn_hook {hook : CreateOrUpdate V} (hop : w.operation = .upsert)
    (hhook : models.createOrUpdate w.modelClass = some hook)
    (hsteady : hook.commits = true ∨ ∀ rows, (hook.run w.data rows).2 = []) (hs : s.Clean)
    (hadded : hook.commits = true → s.added = [])
    (herr : (executeHook models i w none s hook).error = none) :
    SteadyTurn models w s (executeHook models i w none s hook).session ∧
      (executeHook models i w none s hook).session.Clean := by
  have hwaits : w.waits models = false := by
    rw [Write.waits, hop, hhook]
    rfl
  have halone : ∀ table, w.alone models table =
      if (executeHook models 0 w none (Session.begin table) hook).error.isNone then
        (executeHook models 0 w none (Session.begin table) hook).session.flush models
      else none := by
    intro table
    simp only [Write.alone, executeSingleTask, hop, hhook]
  by_cases hcommits : hook.commits = true
  · have hflush : ((s.afterHook hook w.data).hold i).flush models =
        (((Session.begin s.rows).afterHook hook w.data).hold 0).flush models := by
      simp only [Session.flush, Session.hold, Session.afterHook, Session.begin, hs.renamed,
        hadded hcommits]
    cases htable : ((s.afterHook hook w.data).hold i).flush models with
    | none =>
        have hcommit : ((s.afterHook hook w.data).hold i).commit models none =
            .error models.conflict := by
          have hbroken : ((s.afterHook hook w.data).hold i).broken = none := hs.broken
          simp only [Session.commit, hbroken, htable, Option.none_or]
        simp [executeHook, hs.broken, hcommits, hcommit] at herr
    | some table =>
        have hcommit : ((s.afterHook hook w.data).hold i).commit models none = .ok table :=
          Session.commit_eq_ok.mpr ⟨hs.broken, rfl, htable⟩
        have hcommit' : (((Session.begin s.rows).afterHook hook w.data).hold 0).commit models none =
            .ok table := Session.commit_eq_ok.mpr ⟨rfl, rfl, hflush ▸ htable⟩
        have hout : executeHook models i w none s hook =
            ⟨w, ((s.afterHook hook w.data).hold i).restart table, none⟩ := by
          simp [executeHook, hs.broken, hcommits, hcommit]
        rw [hout]
        refine ⟨.changed hwaits ?_ (hadded hcommits).symm, rfl, rfl⟩
        have hbroken : (Session.begin s.rows).broken = none := rfl
        have hrun : executeHook models 0 w none (Session.begin s.rows) hook =
            ⟨w, (((Session.begin s.rows).afterHook hook w.data).hold 0).restart table, none⟩ := by
          simp [executeHook, hbroken, hcommits, hcommit']
        rw [halone, hrun]
        rfl
  · have hnone : ∀ rows, (hook.run w.data rows).2 = [] := hsteady.resolve_left hcommits
    have hout : executeHook models i w none s hook = ⟨w, (s.afterHook hook w.data).hold i, none⟩ := by
      simp [executeHook, hs.broken, hcommits]
    rw [hout]
    refine ⟨.changed hwaits ?_ ?_, hs.renamed, hs.broken⟩
    · rw [halone]
      simp [executeHook, hcommits, Session.begin, Session.flush, Session.renameRow, Session.hold,
        Session.afterHook, hnone]
    · show s.added ++ (hook.run w.data s.rows).2 = s.added
      rw [hnone, List.append_nil]

theorem Write.Ordinary.keeps (hw : w.Ordinary models) (s : Session V) :
    keepsWrites models w none s = true := by
  rw [keepsWrites]
  cases hop : w.operation with
  | insert => rfl
  | delete => rfl
  | update => simp
  | upsert =>
      obtain ⟨hhook, herr⟩ := hw hop
      rw [hhook, herr]
      rfl

theorem steadyTurn (hw : w.Steady models) (hs : s.Clean)
    (hadded : w.commitsItself models = true → s.added = [])
    (herr : (executeSingleTask models i w none s).error = none) :
    SteadyTurn models w s (executeSingleTask models i w none s).session ∧
      (executeSingleTask models i w none s).session.Clean := by
  have hordinary : w.Ordinary models → SteadyTurn models w s
      (executeSingleTask models i w none s).session ∧
        (executeSingleTask models i w none s).session.Clean := by
    intro h
    have hturn : OrdinaryTurn models i w s (executeSingleTask models i w none s) :=
      ordinaryTurn h (h.keeps s) hs.broken
    generalize executeSingleTask models i w none s = a at hturn herr
    cases hturn with
    | changed hwaits hrows => exact ⟨.changed hwaits hrows rfl, hs.renamed, hs.broken⟩
    | added hwaits hinsert => exact ⟨.added hwaits hinsert rfl rfl, hs.renamed, hs.broken⟩
    | raised => cases herr
  by_cases hop : w.operation = .upsert
  · have hsteady := hw hop
    cases hhook : models.createOrUpdate w.modelClass with
    | none =>
        rw [hhook] at hsteady
        exact hordinary fun _ => ⟨hhook, hsteady⟩
    | some hook =>
        rw [hhook] at hsteady
        have hexec : executeSingleTask models i w none s = executeHook models i w none s hook := by
          simp only [executeSingleTask, hop, hhook]
        rw [hexec] at herr ⊢
        refine steadyTurn_hook hop hhook hsteady hs (fun hcommits => hadded ?_) herr
        simp [Write.commitsItself, hop, hhook, hcommits]
  · exact hordinary fun h => absurd h hop

/-- The writes of a group in the order in which they take effect. -/
def arranged (models : Models V) (ws : List (ℕ × Write V)) : List (ℕ × Write V) :=
  ws.filter (fun e => !e.2.waits models) ++ ws.filter fun e => e.2.waits models

/-- No method of the model commits, or no instance waits for a commit. -/
def Calm (models : Models V) (ws : List (ℕ × Write V)) : Prop :=
  (∀ e ∈ ws, e.2.waits models = false) ∨ ∀ e ∈ ws, e.2.commitsItself models = false

/-- These writes, one after the other. -/
def applyAll (models : Models V) (table : Table V) (ws : List (ℕ × Write V)) : Option (Table V) :=
  ws.foldlM (fun table e => e.2.alone models table) table

/-- The loop of a group: what was assigned, then what waited before, then what waits now. -/
theorem runWrites_flush {ws : List (ℕ × Write V)} {s' : Session V}
    (hsteady : ∀ e ∈ ws, e.2.Steady models) (hs : s.Clean)
    (hcalm : s.added = [] ∧ (∀ e ∈ ws, e.2.waits models = false) ∨
      ∀ e ∈ ws, e.2.commitsItself models = false)
    (h : runWrites models s ws = some s') :
    s'.Clean ∧ s'.flush models =
      ((applyAll models s.rows (ws.filter fun e => !e.2.waits models)).bind fun rows =>
        (s.added.foldlM models.insertRow rows).bind fun rows =>
          applyAll models rows (ws.filter fun e => e.2.waits models)) := by
  induction ws generalizing s with
  | nil =>
      obtain rfl : s = s' := Option.some.inj h
      refine ⟨hs, ?_⟩
      rw [Session.flush, hs.renamed]
      show s.added.foldlM models.insertRow s.rows = (s.added.foldlM models.insertRow s.rows).bind some
      rw [Option.bind_fun_some]
  | cons e ws ih =>
      rw [List.forall_mem_cons] at hsteady
      rw [runWrites] at h
      cases herr : (executeSingleTask models e.1 e.2 none s).error with
      | some error => simp [herr] at h
      | none =>
          simp only [herr] at h
          have hadded : e.2.commitsItself models = true → s.added = [] := by
            intro hcommits
            rcases hcalm with hcalm | hcalm
            · exact hcalm.1
            · rw [hcalm e List.mem_cons_self] at hcommits
              cases hcommits
          obtain ⟨hturn, hclean⟩ := steadyTurn hsteady.1 hs hadded herr
          generalize (executeSingleTask models e.1 e.2 none s).session = s₁ at h hturn hclean
          cases hturn with
          | changed hwaits hrows hsame =>
              have hcalm' : s₁.added = [] ∧ (∀ e ∈ ws, e.2.waits models = false) ∨
                  ∀ e ∈ ws, e.2.commitsItself models = false := by
                rw [hsame]
                exact hcalm.imp (fun h => ⟨h.1, (List.forall_mem_cons.mp h.2).2⟩)
                  fun h => (List.forall_mem_cons.mp h).2
              obtain ⟨hclean', hflush⟩ := ih hsteady.2 hclean hcalm' h
              refine ⟨hclean', ?_⟩
              have hnow : (e :: ws).filter (fun e => !e.2.waits models) =
                  e :: ws.filter fun e => !e.2.waits models := List.filter_cons_of_pos (by simp [hwaits])
              have hlater : (e :: ws).filter (fun e => e.2.waits models) =
                  ws.filter fun e => e.2.waits models := List.filter_cons_of_neg (by simp [hwaits])
              rw [hflush, hsame, hnow, hlater, applyAll, applyAll, List.foldlM_cons, hrows]
              rfl
          | added hwaits hinsert hrows hgrown =>
              have hcalm' : ∀ e ∈ ws, e.2.commitsItself models = false := by
                rcases hcalm with hcalm | hcalm
                · rw [hcalm.2 e List.mem_cons_self] at hwaits
                  cases hwaits
                · exact (List.forall_mem_cons.mp hcalm).2
              obtain ⟨hclean', hflush⟩ := ih hsteady.2 hclean (.inr hcalm') h
              refine ⟨hclean', ?_⟩
              have hnow : (e :: ws).filter (fun e => !e.2.waits models) =
                  ws.filter fun e => !e.2.waits models := List.filter_cons_of_neg (by simp [hwaits])
              have hlater : (e :: ws).filter (fun e => e.2.waits models) =
                  e :: ws.filter fun e => e.2.waits models := List.filter_cons_of_pos hwaits
              rw [hflush, hrows, hgrown, hnow, hlater]
              refine congrArg _ (funext fun rows => ?_)
              rw [List.foldlM_append, Option.bind_eq_bind, Option.bind_assoc]
              refine congrArg _ (funext fun table => ?_)
              simp only [applyAll, List.foldlM_cons, List.foldlM_nil, hinsert]
              cases models.insertRow table e.2.data with
              | none => rfl
              | some table => rfl

/-- A group whose writes go through makes of its table what they make of it one by one. -/
theorem groupTable_arranged {ws : List (ℕ × Write V)} {table table' : Table V}
    (hsteady : ∀ e ∈ ws, e.2.Steady models) (hcalm : Calm models ws)
    (h : groupTable models ws table = some table') :
    applyAll models table (arranged models ws) = some table' := by
  obtain ⟨s, hs, hcommit⟩ := Option.bind_eq_some_iff.mp h
  obtain ⟨-, hflush⟩ := runWrites_flush hsteady ⟨rfl, rfl⟩ (hcalm.imp (fun h => ⟨rfl, h⟩) id) hs
  have hflushed : s.flush models = some table' := by
    cases hc : s.commit models none with
    | error e => simp [hc, Except.toOption] at hcommit
    | ok table'' =>
        obtain rfl : table'' = table' := by simpa [hc, Except.toOption] using hcommit
        exact (Session.commit_eq_ok.mp hc).2.2
  rw [applyAll, arranged, List.foldlM_append, ← hflushed, hflush]
  rfl

end

section
variable {models : Models V} {write : ℕ → Write V} {m : String} {a b : ℕ}

/-- The tasks of one model in a batch, in the order in which their writes take effect. -/
def groupOrder (models : Models V) (write : ℕ → Write V) (m : String) (is : List ℕ) : List ℕ :=
  let ofModel := is.filter fun i => (write i).modelClass = m
  ofModel.filter (fun i => !(write i).waits models) ++ ofModel.filter fun i => (write i).waits models

/-- Batch by batch. -/
def drainOrder (models : Models V) (write : ℕ → Write V) (m : String) (batches : List (List ℕ)) :
    List ℕ :=
  batches.flatMap (groupOrder models write m)

theorem groupOrder_perm (is : List ℕ) :
    (groupOrder models write m is).Perm (is.filter fun i => (write i).modelClass = m) :=
  List.perm_append_comm.trans (List.filter_append_perm _ _)

theorem mem_groupOrder {is : List ℕ} :
    a ∈ groupOrder models write m is ↔ a ∈ is ∧ (write a).modelClass = m := by
  rw [(groupOrder_perm is).mem_iff, List.mem_filter, decide_eq_true_iff]

theorem mem_drainOrder {batches : List (List ℕ)} :
    a ∈ drainOrder models write m batches ↔ a ∈ batches.flatten ∧ (write a).modelClass = m := by
  rw [drainOrder, List.mem_flatMap, List.mem_flatten]
  simp only [mem_groupOrder]
  constructor
  · rintro ⟨is, his, ha, hm⟩
    exact ⟨⟨is, his, ha⟩, hm⟩
  · rintro ⟨⟨is, his, ha⟩, hm⟩
    exact ⟨is, his, ha, hm⟩

theorem nodup_drainOrder {batches : List (List ℕ)} (h : batches.flatten.Nodup) :
    (drainOrder models write m batches).Nodup := by
  rw [List.nodup_flatten] at h
  rw [drainOrder, List.nodup_flatMap]
  refine ⟨fun is his => (groupOrder_perm is).nodup_iff.mpr ((h.1 is his).filter _), ?_⟩
  refine h.2.imp fun {is js} hdisjoint i hi hj => ?_
  exact hdisjoint (mem_groupOrder.mp hi).1 (mem_groupOrder.mp hj).1

/-- Two tasks of a model keep their order, unless an instance waits for a later change. -/
theorem pair_groupOrder {is : List ℕ} (h : [a, b].Sublist is) (ha : (write a).modelClass = m)
    (hb : (write b).modelClass = m)
    (hwaits : (write a).waits models = true → (write b).waits models = true) :
    [a, b].Sublist (groupOrder models write m is) := by
  have hof : [a, b].Sublist (is.filter fun i => (write i).modelClass = m) := by
    have hfilter := h.filter fun i => decide ((write i).modelClass = m)
    simpa [ha, hb] using hfilter
  have hboth : ∀ p : ℕ → Bool, p a = true → p b = true →
      [a, b].Sublist ((is.filter fun i => (write i).modelClass = m).filter p) := by
    intro p hpa hpb
    have hfilter := hof.filter p
    rwa [List.filter_cons_of_pos hpa, List.filter_cons_of_pos hpb, List.filter_nil] at hfilter
  cases hwa : (write a).waits models with
  | true => exact (hboth _ hwa (hwaits hwa)).trans (List.sublist_append_right _ _)
  | false =>
      cases hwb : (write b).waits models with
      | true =>
          refine List.Sublist.append (List.singleton_sublist.mpr ?_) (List.singleton_sublist.mpr ?_)
          · exact List.mem_filter.mpr ⟨hof.subset List.mem_cons_self, by simp [hwa]⟩
          · exact List.mem_filter.mpr ⟨hof.subset (by simp), hwb⟩
      | false =>
          exact (hboth _ (by simp [hwa]) (by simp [hwb])).trans (List.sublist_append_left _ _)

theorem pair_drainOrder {batches : List (List ℕ)} (h : [a, b].Sublist batches.flatten)
    (ha : (write a).modelClass = m) (hb : (write b).modelClass = m)
    (hwaits : (write a).waits models = true → (write b).waits models = true) :
    [a, b].Sublist (drainOrder models write m batches) := by
  refine Reorder.pair_flatMap (fun is hi => ?_) (fun is hi => ?_) (fun is his => ?_) h
  · exact mem_groupOrder.mpr ⟨hi, ha⟩
  · exact mem_groupOrder.mpr ⟨hi, hb⟩
  · exact pair_groupOrder his ha hb hwaits

/-- A batch makes of a table what its writes make of it one by one. -/
theorem modelStep_groupOrder {is : List ℕ} {table table' : Table V}
    (hsteady : ∀ i ∈ is, (write i).Steady models)
    (hcalm : (∀ i ∈ is, (write i).modelClass = m → (write i).waits models = false) ∨
      ∀ i ∈ is, (write i).modelClass = m → (write i).commitsItself models = false)
    (h : AsyncWriteQueue.modelStep models m table (is.map fun i => (i, write i)) = some table') :
    (groupOrder models write m is).foldlM (fun table i => (write i).alone models table) table =
      some table' := by
  have hof : (is.map fun i => (i, write i)).filter (fun e => e.2.modelClass = m) =
      (is.filter fun i => (write i).modelClass = m).map fun i => (i, write i) := List.filter_map
  rw [AsyncWriteQueue.modelStep, hof] at h
  split_ifs at h with hempty
  · have hnil : is.filter (fun i => (write i).modelClass = m) = [] := by simpa using hempty
    rw [groupOrder, hnil]
    exact h
  · have hmem : ∀ e ∈ (is.filter fun i => (write i).modelClass = m).map fun i => (i, write i),
        ∃ i ∈ is, (write i).modelClass = m ∧ e = (i, write i) := by
      intro e he
      obtain ⟨i, hi, rfl⟩ := List.mem_map.mp he
      exact ⟨i, (List.mem_filter.mp hi).1, of_decide_eq_true (List.mem_filter.mp hi).2, rfl⟩
    have hout := groupTable_arranged (fun e he => ?_) (hcalm.imp (fun hcalm e he => ?_)
      fun hcalm e he => ?_) h
    · rw [← hout, applyAll, arranged, List.filter_map, List.filter_map, ← List.map_append,
        List.foldlM_map]
      rfl
    · obtain ⟨i, hi, -, rfl⟩ := hmem e he
      exact hsteady i hi
    · obtain ⟨i, hi, hm, rfl⟩ := hmem e he
      exact hcalm i hi hm
    · obtain ⟨i, hi, hm, rfl⟩ := hmem e he
      exact hcalm i hi hm

/-- The batches make of a table what the writes make of it one by one, in that order. -/
theorem modelSteps_drainOrder {batches : List (List ℕ)} {table table' : Table V}
    (hsteady : ∀ i ∈ batches.flatten, (write i).Steady models)
    (hcalm : (∀ i ∈ batches.flatten, (write i).modelClass = m → (write i).waits models = false) ∨
      ∀ i ∈ batches.flatten, (write i).modelClass = m → (write i).commitsItself models = false)
    (h : (batches.map fun is => is.map fun i => (i, write i)).foldlM
      (AsyncWriteQueue.modelStep models m) table = some table') :
    (drainOrder models write m batches).foldlM (fun table i => (write i).alone models table) table =
      some table' := by
  induction batches generalizing table with
  | nil => exact h
  | cons is batches ih =>
      rw [List.map_cons, List.foldlM_cons] at h
      obtain ⟨table₁, hfirst, hrest⟩ := Option.bind_eq_some_iff.mp h
      simp only [List.flatten_cons, List.forall_mem_append] at hsteady hcalm
      rw [drainOrder, List.flatMap_cons, List.foldlM_append,
        modelStep_groupOrder hsteady.1 (hcalm.imp (fun h => h.1) fun h => h.1) hfirst]
      exact ih hsteady.2 (hcalm.imp (fun h => h.2) fun h => h.2) hrest

end

end SmartMedia.WriteQueue
