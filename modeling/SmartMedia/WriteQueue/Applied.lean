import SmartMedia.WriteQueue.Outcomes

/-!
# Which writes are in the database, and in which order?

`applied` lists the tasks in the order in which commits bring their writes to the
database: a session flushes the rows it changed and then the instances that were added,
and an aborted one applies what was committed inside its loop. As long as nothing that
was reported is taken back, the tables are what these writes make of the initial ones,
one after the other.
-/
set_option linter.unusedSectionVars false

namespace SmartMedia.WriteQueue

universe u

variable {V : Type u} [DecidableEq V]

/-- The flush of these tasks: first what was assigned and deleted, then what was added. -/
def flushOrder (late is : List ℕ) : List ℕ := is.filter (· ∉ late) ++ is.filter (· ∈ late)

namespace AsyncWriteQueue

/-- The tasks that the commits inside the loop apply, and those whose instance waits. -/
def turnsApplied (models : Models V) :
    AsyncWriteQueue V → Session V → List ℕ → List ℕ → List (Option Fault) → List ℕ × List ℕ
  | _, _, late, [], _ => ([], late)
  | q, s, late, i :: is, faults =>
      let out := runTask models q s i (faults.headD none)
      let late := if s.added.length < out.2.added.length then late ++ [i] else late
      let rest := turnsApplied models out.1 out.2 late is faults.tail
      (flushOrder late (out.2.committed.drop s.committed.length) ++ rest.1, rest.2)

/-- The tasks whose writes a model group applies. -/
def groupApplied (models : Models V) (q : AsyncWriteQueue V) (model : String) (is : List ℕ)
    (faults : List (Option Fault)) (commitFault : Option String) : List ℕ :=
  if models.registered model then
    let s := (runTasks models q (Session.begin (q.db model)) is faults).2
    let turns := turnsApplied models q (Session.begin (q.db model)) [] is faults
    match s.commit models commitFault with
    | .ok _ => turns.1 ++ flushOrder turns.2 s.held
    | .error _ => turns.1
  else []

def applied (models : Models V) (q : AsyncWriteQueue V) : Action V → List ℕ
  | .runGroup k faults commitFault =>
      match q.workers[k]? with
      | some (.executing ((model, is) :: _)) => q.groupApplied models model is faults commitFault
      | _ => []
  | _ => []

/-- The tasks in the order in which a run applies their writes. -/
def appliedRun (models : Models V) : AsyncWriteQueue V → List (Action V) → List ℕ
  | _, [] => []
  | q, a :: as =>
      match q.step models a with
      | none => []
      | some q' => q.applied models a ++ appliedRun models q' as

section
variable {models : Models V} {q q' : AsyncWriteQueue V} {is : List ℕ} {i j : ℕ}

theorem accepted_steps {t t' : WriteTask V} (h : Relation.ReflTransGen WorkerWrite t t') :
    t'.accepted = t.accepted := by
  induction h with
  | refl => rfl
  | tail _ hstep ih => cases hstep <;> exact ih

/-- What the loop applies was held before or is one of its tasks. -/
theorem mem_turnsApplied {s : Session V} {late : List ℕ} {faults : List (Option Fault)}
    (h : j ∈ (turnsApplied models q s late is faults).1) : j ∈ s.tasks ∨ j ∈ is := by
  induction is generalizing q s late faults with
  | nil => exact absurd h List.not_mem_nil
  | cons i is ih =>
      have hturn : ∀ j ∈ (runTask models q s i (faults.headD none)).2.tasks, j ∈ s.tasks ∨ j = i := by
        intro j hj
        rw [runTask] at hj
        cases ht : q.objects[i]? with
        | none =>
            rw [ht] at hj
            exact .inl hj
        | some t =>
            simp only [ht] at hj
            refine executeSingleTask_tasks models i t.write (faults.headD none) s j ?_
            split at hj
            · exact hj
            · exact hj
      have hin : ∀ j ∈ (runTask models q s i (faults.headD none)).2.tasks, j ∈ s.tasks ∨ j ∈ i :: is := by
        intro j hj
        rcases hturn j hj with hj | rfl
        · exact .inl hj
        · exact .inr List.mem_cons_self
      rw [turnsApplied] at h
      rcases List.mem_append.mp h with h | h
      · have hdrop : j ∈ (runTask models q s i (faults.headD none)).2.committed.drop
            s.committed.length := by
          rcases List.mem_append.mp h with h | h
          · exact List.mem_of_mem_filter h
          · exact List.mem_of_mem_filter h
        exact hin j (List.mem_append_left _ (List.mem_of_mem_drop hdrop))
      · rcases ih h with h | h
        · exact hin j h
        · exact .inr (List.mem_cons_of_mem i h)

theorem mem_groupApplied {model : String} {faults : List (Option Fault)}
    {commitFault : Option String} (h : j ∈ q.groupApplied models model is faults commitFault) :
    j ∈ is := by
  have hturns : j ∈ (turnsApplied models q (Session.begin (q.db model)) [] is faults).1 → j ∈ is :=
    fun h => (mem_turnsApplied h).resolve_left List.not_mem_nil
  rw [groupApplied] at h
  split_ifs at h
  · dsimp only at h
    split at h
    · rcases List.mem_append.mp h with h | h
      · exact hturns h
      · have hheld : j ∈ (runTasks models q (Session.begin (q.db model)) is faults).2.tasks := by
          refine List.mem_append_right _ ?_
          rcases List.mem_append.mp h with h | h
          · exact List.mem_of_mem_filter h
          · exact List.mem_of_mem_filter h
        exact (Evolves.runTasks_session models _ is faults j hheld).resolve_left List.not_mem_nil
    · exact hturns h
  · exact absurd h List.not_mem_nil

/-- A submit makes at most one task, the last one, and nothing of it is committed. -/
theorem submit_objects (q : AsyncWriteQueue V) {sub : Submission V} (hkey : sub.key = none) :
    (q.submit sub).1 = q ∨
      ∃ t, (q.submit sub).1.objects = q.objects ++ [t] ∧ t.commits = [] ∧
        (q.submit sub).1.workers = q.workers ∧
        ∀ j ∈ (q.submit sub).1.queue, j ∈ q.queue ∨ j = q.objects.length := by
  have hout := submitted q sub
  generalize q.submit sub = out at hout ⊢
  cases hout with
  | notRunning => exact .inl rfl
  | merged _ hsome _ =>
      rw [hkey] at hsome
      cases hsome
  | full => exact .inr ⟨_, rfl, rfl, rfl, fun j hj => .inl hj⟩
  | accepted =>
      refine .inr ⟨{ sub.task (q.objects.length + 1) with enqueued := true }, ?_, rfl, rfl,
        fun j hj => ?_⟩
      · show (q.objects ++ [sub.task (q.objects.length + 1)]).modify q.objects.length _ = _
        rw [List.modify_eq_take_cons_drop (by simp)]
        simp
      · rcases (List.mem_orderedInsert _).mp hj with hj | hj
        · exact .inr hj
        · exact .inl hj

/-- The tasks that exist keep what was accepted. -/
theorem accepted_step {a : Action V} {t : WriteTask V} (hc : q.Conserved) (hplain : a.Plain)
    (hs : q.step models a = some q') (ht : q.objects[j]? = some t) :
    ∃ t', q'.objects[j]? = some t' ∧ t'.accepted = t.accepted := by
  have hsame : a.Moves → ∃ t', q'.objects[j]? = some t' ∧ t'.accepted = t.accepted := by
    intro hmoves
    rw [(hc.moved hmoves hs).1]
    exact ⟨t, ht, rfl⟩
  cases stepped hs with
  | start => exact hsame trivial
  | stop => exact hsame trivial
  | clear => exact hplain.elim
  | submit sub =>
      rcases submit_objects q hplain with hq | ⟨t', hobjects, -⟩
      · rw [hq]
        exact ⟨t, ht, rfl⟩
      · rw [hobjects, List.getElem?_append_left (List.getElem?_eq_some_iff.mp ht).1]
        exact ⟨t, ht, rfl⟩
  | enter => exact hsame trivial
  | pop => exact hsame trivial
  | emptyBatch => exact hsame trivial
  | startBatch => exact hsame trivial
  | @runGroup k model is rest faults commitFault _ =>
      have hbatch : Evolves is q _ := .executeModelBatch models model faults commitFault
      rw [(afterGroup_spec _ k rest).1]
      obtain ⟨t', ht', hsteps, -⟩ := hbatch.object ht
      exact ⟨t', ht', accepted_steps hsteps⟩

/-- What is applied was in the hands of a worker. -/
theorem mem_applied {a : Action V} (hi : i ∈ q.applied models a) : i ∈ q.inHand := by
  cases a with
  | runGroup k faults commitFault =>
      rw [applied] at hi
      split at hi
      · rename_i model is rest hw
        have hmem := mem_groupApplied hi
        exact Multiset.mem_coe.mpr (List.mem_flatMap.mpr ⟨_, List.mem_of_getElem? hw,
          by simp [Worker.tasks, hmem]⟩)
      · exact absurd hi List.not_mem_nil
  | _ => exact absurd hi List.not_mem_nil

theorem appliedRun_concat {q₀ : AsyncWriteQueue V} {as : List (Action V)} {a : Action V}
    (hrun : PartialRun.exec (step models) q₀ as = some q) (hs : q.step models a = some q') :
    appliedRun models q₀ (as ++ [a]) = appliedRun models q₀ as ++ q.applied models a := by
  induction as generalizing q₀ with
  | nil =>
      obtain rfl : q₀ = q := Option.some.inj hrun
      simp only [List.nil_append, appliedRun, hs, List.append_nil]
  | cons b as ih =>
      obtain ⟨u, hu, htail⟩ := PartialRun.exec_cons_eq_some.mp hrun
      simp only [List.cons_append, appliedRun, hu]
      rw [ih htail, List.append_assoc]

end

end AsyncWriteQueue

/-- The table after a write that has a session of its own; `none` if it raises. -/
def Write.alone (models : Models V) (w : Write V) (table : Table V) : Option (Table V) :=
  let a := executeSingleTask models 0 w none (Session.begin table)
  if a.error.isNone then a.session.flush models else none

/-- No method of the model is called, and the constructor does not raise in an UPSERT. -/
def Write.Ordinary (models : Models V) (w : Write V) : Prop :=
  w.operation = .upsert → models.createOrUpdate w.modelClass = none ∧
    models.constructorError w.modelClass w.data = none

/-- The write adds an instance, which waits for the flush of its session. -/
def Write.waits (models : Models V) (w : Write V) : Bool :=
  match w.operation with
  | .insert => true
  | .update => false
  | .delete => false
  | .upsert => (models.createOrUpdate w.modelClass).isNone

/-- What a turn of an ordinary write that takes nothing back does: it changes the rows as
it would alone, or adds an instance, or raises and leaves the session alone. -/
inductive OrdinaryTurn (models : Models V) (i : ℕ) (w : Write V) (s : Session V) :
    Attempt V → Prop
  | changed {w' : Write V} {rows : Table V} : w.waits models = false →
      w.alone models s.rows = some rows →
      OrdinaryTurn models i w s ⟨w', { s with rows := rows }.hold i, none⟩
  | added {w' : Write V} : w.waits models = true →
      (∀ table, w.alone models table = models.insertRow table w.data) →
      OrdinaryTurn models i w s ⟨w', (s.add w.data).hold i, none⟩
  | raised {w' : Write V} {e : String} : OrdinaryTurn models i w s ⟨w', s, some e⟩

section
variable {models : Models V} {i : ℕ} {w : Write V} {fault : Option Fault} {s : Session V}

theorem alone_insertRow (h : w.operation = .insert ∨ w.operation = .upsert)
    (hw : w.Ordinary models) (herr : models.constructorError w.modelClass w.data = none)
    (table : Table V) : w.alone models table = models.insertRow table w.data := by
  have hadd : executeSingleTask models 0 w none (Session.begin table) =
      ⟨w, ((Session.begin table).add w.data).hold 0, none⟩ := by
    rcases h with h | h
    · simp [executeSingleTask, h, executeInsert, herr]
    · simp [executeSingleTask, h, (hw h).1, herr]
  rw [Write.alone, hadd]
  show [w.data].foldlM models.insertRow table = _
  rw [List.foldlM_cons]
  exact bind_pure _

/-- UPDATE alone: the other fields are assigned to the row with the `id`, if there is one. -/
theorem alone_update (hop : w.operation = .update) (table : Table V) :
    w.alone models table =
      some (match models.key w.data "id" with
        | none => table
        | some id => ((Session.begin table).assign id (w.data.erase "id")).rows) := by
  simp only [Write.alone, executeSingleTask, hop, executeUpdate]
  cases models.key w.data "id" with
  | none => rfl
  | some id =>
      simp only [Session.begin, Option.none_or, Option.bind_none, Option.isNone_none, if_true]
      unfold Session.assign
      split <;> rfl

theorem ordinaryTurn_update (hop : w.operation = .update)
    (hk : keepsWrites models w fault s = true) (hb : s.broken = none) :
    OrdinaryTurn models i w s (executeUpdate models i w fault s) := by
  have hwaits : w.waits models = false := by rw [Write.waits, hop]
  simp only [keepsWrites, hop] at hk
  simp only [executeUpdate]
  cases hkey : models.key w.data "id" with
  | none =>
      have hsame : w.alone models s.rows = some s.rows := by
        rw [alone_update hop, hkey]
      exact .changed hwaits hsame
  | some id =>
      have hfault : fault.bind Fault.atStatement = none := by simpa [hkey] using hk
      rw [hb, hfault]
      have hassign : s.assign id (w.data.erase "id") =
          { s with rows := ((Session.begin s.rows).assign id (w.data.erase "id")).rows } := by
        simp only [Session.assign, Session.begin]
        split <;> rfl
      simp only [Option.none_or, hassign]
      refine .changed hwaits ?_
      rw [alone_update hop, hkey]

theorem ordinaryTurn_delete (hop : w.operation = .delete) (hb : s.broken = none) :
    OrdinaryTurn models i w s (executeDelete models i w fault s) := by
  have halone : ∀ table, w.alone models table =
      some (match models.key w.data "id" with
        | none => table
        | some id => table.erase id) := by
    intro table
    simp only [Write.alone, executeSingleTask, hop, executeDelete]
    cases models.key w.data "id" with
    | none => rfl
    | some id => rfl
  have hwaits : w.waits models = false := by rw [Write.waits, hop]
  simp only [executeDelete]
  cases hkey : models.key w.data "id" with
  | none =>
      have hsame : w.alone models s.rows = some s.rows := by rw [halone, hkey]
      exact .changed hwaits hsame
  | some id =>
      rw [hb, Option.none_or]
      cases fault.bind Fault.atStatement with
      | some e => exact .raised
      | none =>
          refine .changed hwaits ?_
          rw [halone, hkey]

theorem ordinaryTurn (hw : w.Ordinary models) (hk : keepsWrites models w fault s = true)
    (hb : s.broken = none) : OrdinaryTurn models i w s (executeSingleTask models i w fault s) := by
  rw [executeSingleTask]
  cases hop : w.operation with
  | insert =>
      dsimp only
      rw [executeInsert]
      cases herr : models.constructorError w.modelClass w.data with
      | some e => exact .raised
      | none =>
          rw [Option.none_or]
          cases fault.bind Fault.atStatement with
          | some e => exact .raised
          | none =>
              refine .added ?_ fun table => alone_insertRow (.inl hop) hw herr table
              rw [Write.waits, hop]
  | update => exact ordinaryTurn_update hop hk hb
  | delete => exact ordinaryTurn_delete hop hb
  | upsert =>
      obtain ⟨hhook, herr⟩ := hw hop
      rw [hhook, herr]
      refine .added ?_ fun table => alone_insertRow (.inr hop) hw herr table
      rw [Write.waits, hop, hhook]
      rfl

end

namespace AsyncWriteQueue

section
variable {models : Models V} {q q' : AsyncWriteQueue V} {is : List ℕ} {i j : ℕ}

/-- One more task that waits. -/
theorem filter_waiting {late l : List ℕ} (hi : i ∉ l) :
    (l ++ [i]).filter (· ∉ late ++ [i]) = l.filter (· ∉ late) ∧
      (l ++ [i]).filter (· ∈ late ++ [i]) = l.filter (· ∈ late) ++ [i] := by
  have hne : ∀ j ∈ l, j ∈ late ++ [i] ↔ j ∈ late := by
    intro j hj
    rw [List.mem_append, List.mem_singleton, or_iff_left]
    rintro rfl
    exact hi hj
  have hout : l.filter (· ∉ late ++ [i]) = l.filter (· ∉ late) :=
    List.filter_congr fun j hj => decide_eq_decide.mpr (not_congr (hne j hj))
  have hin : l.filter (· ∈ late ++ [i]) = l.filter (· ∈ late) :=
    List.filter_congr fun j hj => decide_eq_decide.mpr (hne j hj)
  rw [List.filter_append, List.filter_append, hout, hin]
  simp

/-- A task that had its turn is not among those to come. -/
theorem concat_notMem {l : List ℕ} (hl : ∀ j ∈ l, j ∉ i :: is) (hi : i ∉ is) :
    ∀ j ∈ l ++ [i], j ∉ is := by
  intro j hj
  rcases List.mem_append.mp hj with hj | hj
  · exact fun hmem => hl j hj (List.mem_cons_of_mem i hmem)
  · rw [List.mem_singleton.mp hj]
    exact hi

end

/-- The session is what its held writes make of the table it began with: those that do not
wait made its rows, those of `late` wait as its added instances. -/
structure Follows (models : Models V) (act : Table V → ℕ → Option (Table V)) (s : Session V)
    (late : List ℕ) : Prop where
  rows : (s.held.filter (· ∉ late)).foldlM act s.start = some s.rows
  added : ∀ table, (s.held.filter (· ∈ late)).foldlM act table =
    s.added.foldlM models.insertRow table

namespace Follows
variable {models : Models V} {act : Table V → ℕ → Option (Table V)} {s : Session V}
  {late : List ℕ} {i : ℕ}

theorem flush (h : Follows models act s late) (hrenamed : s.renamed = none) :
    (flushOrder late s.held).foldlM act s.start = s.flush models := by
  rw [flushOrder, List.foldlM_append, h.rows, Session.flush, hrenamed]
  exact h.added s.rows

theorem changed {rows : Table V} (h : Follows models act s late) (hnew : i ∉ late)
    (hrow : act s.rows i = some rows) : Follows models act ({ s with rows := rows }.hold i) late where
  rows := by
    show ((s.held ++ [i]).filter _).foldlM act s.start = some rows
    rw [List.filter_append, List.foldlM_append, h.rows]
    simp [hnew, hrow]
  added := by
    show ∀ table, ((s.held ++ [i]).filter _).foldlM act table = s.added.foldlM _ table
    intro table
    rw [List.filter_append, ← h.added]
    simp [hnew]

theorem concat {data : Data V} (h : Follows models act s late) (hfirst : i ∉ s.held)
    (hact : ∀ table, act table i = models.insertRow table data) :
    Follows models act ((s.add data).hold i) (late ++ [i]) := by
  obtain ⟨hkept, hadd⟩ := @filter_waiting i late s.held hfirst
  constructor
  · show ((s.held ++ [i]).filter _).foldlM act s.start = some s.rows
    rw [hkept, h.rows]
  · show ∀ table, ((s.held ++ [i]).filter _).foldlM act table = (s.added ++ [data]).foldlM _ table
    intro table
    rw [hadd, List.foldlM_append, List.foldlM_append, h.added]
    refine congrArg _ (funext fun table' => ?_)
    rw [List.foldlM_cons, List.foldlM_cons, hact]
    rfl

end Follows

section
variable {models : Models V} {q q' : AsyncWriteQueue V} {is : List ℕ} {i j : ℕ}

/-- The flush after the loop makes of the table what the writes held by the session make
of it, those that add an instance last. -/
theorem turnsApplied_fold {act : Table V → ℕ → Option (Table V)} {s : Session V} {late : List ℕ}
    {faults : List (Option Fault)} (hnodup : is.Nodup)
    (hact : ∀ i ∈ is, ∃ t, q.objects[i]? = some t ∧ t.write.Ordinary models ∧
      ∀ table, act table i = t.write.alone models table)
    (hkeep : everyTurnKeeps models q s is faults = true) (hb : s.broken = none)
    (hrenamed : s.renamed = none) (hheld : ∀ j ∈ s.held, j ∉ is) (hlate : ∀ j ∈ late, j ∉ is)
    (hfollows : Follows models act s late) :
    (turnsApplied models q s late is faults).1 = [] ∧
      (flushOrder (turnsApplied models q s late is faults).2
        (runTasks models q s is faults).2.held).foldlM act s.start =
          (runTasks models q s is faults).2.flush models := by
  induction is generalizing q s late faults with
  | nil => exact ⟨rfl, hfollows.flush hrenamed⟩
  | cons i is ih =>
      obtain ⟨t, ht, hordinary, hacti⟩ := hact i List.mem_cons_self
      rw [everyTurnKeeps, Bool.and_eq_true, ht, Option.all_some] at hkeep
      rw [List.nodup_cons] at hnodup
      have hevolves : Evolves [i] q (runTask models q s i (faults.headD none)).1 :=
        .runTask models s List.mem_cons_self _
      have hact' : ∀ j ∈ is, ∃ t', (runTask models q s i (faults.headD none)).1.objects[j]? = some t' ∧
          t'.write.Ordinary models ∧ ∀ table, act table j = t'.write.alone models table := by
        intro j hj
        rw [hevolves.untouched fun hji => hnodup.1 (List.mem_singleton.mp hji ▸ hj)]
        exact hact j (List.mem_cons_of_mem i hj)
      have hfirst : i ∉ s.held := fun hmem => hheld i hmem List.mem_cons_self
      have hnew : i ∉ late := fun hmem => hlate i hmem List.mem_cons_self
      have hlate' : ∀ j ∈ late, j ∉ is := fun j hj hmem => hlate j hj (List.mem_cons_of_mem i hmem)
      have hsession : (runTask models q s i (faults.headD none)).2 =
          (executeSingleTask models i t.write (faults.headD none) s).session := by
        simp only [runTask, ht]
        split <;> rfl
      have hturn : OrdinaryTurn models i t.write s
          (executeSingleTask models i t.write (faults.headD none) s) :=
        ordinaryTurn hordinary hkeep.1 hb
      rw [turnsApplied, runTasks]
      have hkeep' := hkeep.2
      generalize runTask models q s i (faults.headD none) = out at hact' hsession hkeep' ⊢
      generalize executeSingleTask models i t.write (faults.headD none) s = a at hturn hsession
      -- a turn that does not raise applies nothing yet
      have hclose : ∀ late', out.2.committed = s.committed → out.2.start = s.start →
          (turnsApplied models out.1 out.2 late' is faults.tail).1 = [] ∧
            (flushOrder (turnsApplied models out.1 out.2 late' is faults.tail).2
              (runTasks models out.1 out.2 is faults.tail).2.held).foldlM act out.2.start =
                (runTasks models out.1 out.2 is faults.tail).2.flush models →
          flushOrder late' (out.2.committed.drop s.committed.length) ++
              (turnsApplied models out.1 out.2 late' is faults.tail).1 = [] ∧
            (flushOrder (turnsApplied models out.1 out.2 late' is faults.tail).2
              (runTasks models out.1 out.2 is faults.tail).2.held).foldlM act s.start =
                (runTasks models out.1 out.2 is faults.tail).2.flush models := by
        rintro late' hcommitted hstart ⟨hnone, hfold⟩
        rw [hcommitted, List.drop_length, hnone, ← hstart]
        exact ⟨rfl, hfold⟩
      cases hturn with
      | @changed w' rows _ hrow =>
          have hgrow : ¬ s.added.length < out.2.added.length := by
            rw [hsession]
            exact lt_irrefl _
          rw [if_neg hgrow]
          refine hclose late (by rw [hsession]; rfl) (by rw [hsession]; rfl) ?_
          refine ih hnodup.2 hact' hkeep' (by rw [hsession]; exact hb)
            (by rw [hsession]; exact hrenamed)
            (by rw [hsession]; exact concat_notMem hheld hnodup.1) hlate' ?_
          rw [hsession]
          exact hfollows.changed hnew ((hacti s.rows).trans hrow)
      | @added w' _ hinsert =>
          have hgrow : s.added.length < out.2.added.length := by
            rw [hsession]
            show s.added.length < (s.added ++ [t.write.data]).length
            rw [List.length_append]
            exact Nat.lt_add_one _
          rw [if_pos hgrow]
          refine hclose (late ++ [i]) (by rw [hsession]; rfl) (by rw [hsession]; rfl) ?_
          refine ih hnodup.2 hact' hkeep' (by rw [hsession]; exact hb)
            (by rw [hsession]; exact hrenamed)
            (by rw [hsession]; exact concat_notMem hheld hnodup.1)
            (concat_notMem hlate hnodup.1) ?_
          rw [hsession]
          exact hfollows.concat hfirst fun table => (hacti table).trans (hinsert table)
      | @raised w' e =>
          have hgrow : ¬ s.added.length < out.2.added.length := by
            rw [hsession]
            exact lt_irrefl _
          have hsame : out.2 = s := hsession
          rw [hsame] at hgrow hkeep' ⊢
          rw [if_neg hgrow, List.drop_length]
          exact ih hnodup.2 hact' hkeep' hb hrenamed
            (fun j hj hmem => hheld j hj (List.mem_cons_of_mem i hmem)) hlate' hfollows

@[simp] theorem retryTask_db (q : AsyncWriteQueue V) (i : ℕ) (e : String) :
    (q.retryTask i e).db = q.db := by
  rw [retryTask]
  split
  · rfl
  · split_ifs <;> rfl

theorem runTasks_db (s : Session V) (faults : List (Option Fault)) :
    (runTasks models q s is faults).1.db = q.db := by
  induction is generalizing q s faults with
  | nil => rfl
  | cons i is ih =>
      have hturn : (runTask models q s i (faults.headD none)).1.db = q.db := by
        rw [runTask]
        split
        · rfl
        · dsimp only
          split
          · rfl
          · exact retryTask_db _ i _
      rw [runTasks]
      exact (ih _ _).trans hturn

theorem foldl_db {g : AsyncWriteQueue V → ℕ → AsyncWriteQueue V} (hg : ∀ q i, (g q i).db = q.db)
    (q : AsyncWriteQueue V) (is : List ℕ) : (is.foldl g q).db = q.db := by
  induction is generalizing q with
  | nil => rfl
  | cons i is ih =>
      rw [List.foldl_cons, ih]
      exact hg q i

theorem markCommitted_db (q : AsyncWriteQueue V) (is : List ℕ) : (q.markCommitted is).db = q.db :=
  foldl_db (fun q i => show (q.modify i WriteTask.commit).db = q.db from rfl) q is

theorem failTasks_db (q : AsyncWriteQueue V) (is : List ℕ) (e : String) :
    (is.foldl (fun q i => q.failTask i e) q).db = q.db :=
  foldl_db (fun q i => show (q.failTask i e).db = q.db from rfl) q is

/-- A group that takes nothing back: its table is what the applied writes make of it. -/
theorem executeModelBatch_db {act : Table V → ℕ → Option (Table V)} {model : String}
    {faults : List (Option Fault)} {commitFault : Option String} (hnodup : is.Nodup)
    (hact : ∀ i ∈ is, ∃ t, q.objects[i]? = some t ∧ t.write.Ordinary models ∧
      ∀ table, act table i = t.write.alone models table)
    (hkeep : groupKeeps models q model is faults commitFault = true) :
    (q.groupApplied models model is faults commitFault).foldlM act (q.db model) =
      some ((q.executeModelBatch models model is faults commitFault).db model) := by
  rw [groupApplied, executeModelBatch]
  split_ifs with hreg
  · rw [groupKeeps, hreg, Bool.not_true, Bool.false_or, Bool.and_eq_true] at hkeep
    obtain ⟨hturns, hok⟩ := hkeep
    have hlate : ∀ j ∈ ([] : List ℕ), j ∉ is := fun j hj => absurd hj List.not_mem_nil
    obtain ⟨hnone, hfold⟩ := turnsApplied_fold hnodup hact hturns rfl rfl hlate hlate ⟨rfl, fun _ => rfl⟩
    cases hcommit : (runTasks models q (Session.begin (q.db model)) is faults).2.commit models
        commitFault with
    | error e => simp [hcommit, Except.isOk, Except.toBool] at hok
    | ok table =>
        simp only [closeSession, hcommit, hnone, List.nil_append, setTable, Function.update_self]
        exact hfold.trans (Session.commit_eq_ok.mp hcommit).2.2
  · rw [failTasks_db]
    rfl

/-- A group leaves the tables of other models alone. -/
theorem executeModelBatch_db_ne {model m : String} {faults : List (Option Fault)}
    {commitFault : Option String} (h : m ≠ model) :
    (q.executeModelBatch models model is faults commitFault).db m = q.db m := by
  rw [executeModelBatch]
  split_ifs
  · simp only [closeSession]
    split
    · simp only [setTable, Function.update_of_ne h, markCommitted_db, runTasks_db]
    · rw [retryTasks, foldl_db fun q i => retryTask_db q i _]
      simp only [setTable, Function.update_of_ne h, markCommitted_db, runTasks_db]
  · rw [failTasks_db]

/-- The accepted writes of these tasks. -/
def acceptedWrites (q : AsyncWriteQueue V) (is : List ℕ) : List (Write V) :=
  is.filterMap fun i => (q.objects[i]?).map WriteTask.accepted

/-- The table of a model after these writes, one after the other. -/
def replay (models : Models V) (m : String) (ws : List (Write V)) (table : Table V) :
    Option (Table V) :=
  (ws.filter fun w => w.modelClass = m).foldlM (fun table w => w.alone models table) table

theorem replay_append (m : String) (ws ws' : List (Write V)) (table : Table V) :
    replay models m (ws ++ ws') table =
      (replay models m ws table).bind fun table => replay models m ws' table := by
  rw [replay, List.filter_append, List.foldlM_append]
  rfl

/-- Writes to other models. -/
theorem replay_ne {m : String} {ws : List (Write V)} (h : ∀ w ∈ ws, w.modelClass ≠ m)
    (table : Table V) : replay models m ws table = some table := by
  have hnone : (ws.filter fun w => w.modelClass = m) = [] :=
    List.filter_eq_nil_iff.mpr fun w hw => by simpa using h w hw
  rw [replay, hnone]
  rfl

theorem replay_acceptedWrites {m : String} {table : Table V}
    (h : ∀ i ∈ is, ∃ t, q.objects[i]? = some t ∧ t.accepted.modelClass = m) :
    replay models m (q.acceptedWrites is) table = is.foldlM (fun table i =>
      (q.objects[i]?).elim (some table) fun t => t.accepted.alone models table) table := by
  induction is generalizing table with
  | nil => rfl
  | cons i is ih =>
      rw [List.forall_mem_cons] at h
      obtain ⟨⟨t, ht, hm⟩, hrest⟩ := h
      have hcons : q.acceptedWrites (i :: is) = t.accepted :: q.acceptedWrites is := by
        simp [acceptedWrites, ht]
      rw [hcons, replay, List.filter_cons_of_pos (by simpa using hm), List.foldlM_cons,
        List.foldlM_cons, ht]
      exact congrArg _ (funext fun table' => ih hrest)

/-- The groups in the hands of the workers hold the tasks of their models. -/
def InGroups (q : AsyncWriteQueue V) : Prop :=
  ∀ groups, Worker.executing groups ∈ q.workers → ∀ g ∈ groups, ∀ i ∈ g.2,
    ∃ t, q.objects[i]? = some t ∧ t.accepted.modelClass = g.1

theorem mem_addToGroup {p : String → ℕ → Prop} {model : String} {groups : List (String × List ℕ)}
    (h : ∀ g ∈ groups, ∀ i ∈ g.2, p g.1 i) (hi : p model i) :
    ∀ g ∈ addToGroup model i groups, ∀ j ∈ g.2, p g.1 j := by
  induction groups with
  | nil => simpa [addToGroup] using hi
  | cons g groups ih =>
      rw [List.forall_mem_cons] at h
      rw [addToGroup]
      split_ifs with hm
      · refine List.forall_mem_cons.mpr ⟨fun j hj => ?_, h.2⟩
        rcases List.mem_append.mp hj with hj | hj
        · exact h.1 j hj
        · rw [List.mem_singleton.mp hj, hm]
          exact hi
      · exact List.forall_mem_cons.mpr ⟨h.1, ih h.2⟩

/-- A batch is grouped by model. -/
theorem grouped_model {tasks : List ℕ} : ∀ g ∈ q.grouped tasks, ∀ i ∈ g.2,
    ∃ t, q.objects[i]? = some t ∧ t.write.modelClass = g.1 := by
  have hfold : ∀ groups : List (String × List ℕ), (∀ g ∈ groups, ∀ i ∈ g.2,
      ∃ t, q.objects[i]? = some t ∧ t.write.modelClass = g.1) →
      ∀ g ∈ tasks.foldl q.groupTask groups, ∀ i ∈ g.2,
        ∃ t, q.objects[i]? = some t ∧ t.write.modelClass = g.1 := by
    induction tasks with
    | nil => exact fun _ h => h
    | cons i tasks ih =>
        intro groups h
        refine ih _ ?_
        rw [groupTask]
        split
        · exact h
        · rename_i t ht
          exact mem_addToGroup (p := fun m i => ∃ t, q.objects[i]? = some t ∧ t.write.modelClass = m)
            h ⟨t, ht, rfl⟩
  exact hfold [] fun g hg => absurd hg List.not_mem_nil

/-- Where the groups of a worker come from. -/
theorem executing_step {a : Action V} {groups : List (String × List ℕ)}
    (hs : q.step models a = some q') (h : Worker.executing groups ∈ q'.workers) :
    Worker.executing groups ∈ q.workers ∨
      (∃ tasks, Worker.collecting tasks ∈ q.workers ∧ groups = q.grouped tasks) ∨
        ∃ g, Worker.executing (g :: groups) ∈ q.workers := by
  have hset : ∀ {k w}, Worker.executing groups ∈ (q.setWorker k w).workers →
      Worker.executing groups ∈ q.workers ∨ Worker.executing groups = w :=
    fun h => List.mem_or_eq_of_mem_set h
  cases stepped hs with
  | start =>
      rw [startWorkers] at h
      split_ifs at h
      · exact .inl h
      · rcases List.mem_append.mp h with h | h
        · exact .inl h
        · cases List.eq_of_mem_replicate h
  | stop => exact .inl h
  | clear => exact .inl h
  | submit sub =>
      have hout := submitted q sub
      generalize q.submit sub = out at hout h
      cases hout with
      | notRunning => exact .inl h
      | merged => exact .inl h
      | full => exact .inl h
      | accepted => exact .inl h
  | enter =>
      rcases hset h with h | h
      · exact .inl h
      · split_ifs at h
  | pop =>
      rcases hset h with h | h
      · exact .inl h
      · cases h
  | emptyBatch =>
      rcases hset h with h | h
      · exact .inl h
      · cases h
  | @startBatch k tasks hw _ =>
      rcases hset h with h | h
      · exact .inl h
      · cases h
        exact .inr (.inl ⟨tasks, List.mem_of_getElem? hw, rfl⟩)
  | @runGroup k model is rest faults commitFault hw =>
      have hbatch : Evolves is q (q.executeModelBatch models model is faults commitFault) :=
        .executeModelBatch models model faults commitFault
      have hworkers : (q.executeModelBatch models model is faults commitFault).workers = q.workers :=
        hbatch.workers
      cases rest with
      | nil =>
          rcases List.mem_or_eq_of_mem_set h with h | h
          · exact .inl (hworkers ▸ h)
          · cases h
      | cons g rest =>
          rcases List.mem_or_eq_of_mem_set h with h | h
          · exact .inl (hworkers ▸ h)
          · cases h
            exact .inr (.inr ⟨_, List.mem_of_getElem? hw⟩)

theorem InGroups.step {a : Action V} (h : q.InGroups) (hc : q.Conserved) (hplain : a.Plain)
    (hs : q.step models a = some q') : q'.InGroups := by
  intro groups hw g hg i hi
  have hold : ∃ t, q.objects[i]? = some t ∧ t.accepted.modelClass = g.1 := by
    rcases executing_step hs hw with hold | ⟨tasks, hcollects, rfl⟩ | ⟨g', hold⟩
    · exact h groups hold g hg i hi
    · obtain ⟨t, ht, hm⟩ := grouped_model g hg i hi
      have hlive : ∀ j ∈ tasks, ∃ t, q.objects[j]? = some t ∧ t.Open := by
        intro j hj
        refine hc.live j (Multiset.mem_add.mpr (.inr ?_))
        exact Multiset.mem_coe.mpr (List.mem_flatMap.mpr ⟨.collecting tasks, hcollects, hj⟩)
      have hmem : i ∈ tasks := by
        refine (grouped_perm fun j hj => ?_).mem_iff.mp (List.mem_flatMap.mpr ⟨g, hg, hi⟩)
        obtain ⟨t', ht', -⟩ := hlive j hj
        exact (List.getElem?_eq_some_iff.mp ht').1
      obtain ⟨t', ht', hopen⟩ := hlive i hmem
      obtain rfl := Option.some.inj (ht.symm.trans ht')
      refine ⟨t, ht, ?_⟩
      rw [← hopen.write]
      exact hm
    · exact h _ hold g (List.mem_cons_of_mem g' hg) i hi
  obtain ⟨t, ht, hm⟩ := hold
  obtain ⟨t', ht', haccepted⟩ := accepted_step hc hplain hs ht
  exact ⟨t', ht', haccepted ▸ hm⟩

/-- A step that executes no group leaves the tables alone. -/
theorem step_db {a : Action V} (ha : ∀ k faults commitFault, a ≠ .runGroup k faults commitFault)
    (hs : q.step models a = some q') : q'.db = q.db := by
  cases stepped hs with
  | start =>
      rw [startWorkers]
      split_ifs <;> rfl
  | stop => rfl
  | clear => rfl
  | submit sub =>
      have hout := submitted q sub
      generalize q.submit sub = out at hout
      cases hout with
      | notRunning => rfl
      | merged => rfl
      | full => rfl
      | accepted => rfl
  | enter => rfl
  | pop => rfl
  | emptyBatch => rfl
  | startBatch => rfl
  | runGroup faults commitFault _ => exact absurd rfl (ha _ faults commitFault)

/-- One step: the tables are what the applied writes make of them. -/
theorem replay_step {a : Action V} (hc : q.Conserved) (hgroups : q.InGroups)
    (hkeep : q.keepsReports models a = true) (hs : q.step models a = some q') {m : String}
    (hordinary : ∀ t ∈ q.objects, t.accepted.modelClass = m → t.accepted.Ordinary models) :
    replay models m (q.acceptedWrites (q.applied models a)) (q.db m) = some (q'.db m) := by
  have hidle : (∀ k faults commitFault, a ≠ .runGroup k faults commitFault) →
      q.applied models a = [] →
        replay models m (q.acceptedWrites (q.applied models a)) (q.db m) = some (q'.db m) := by
    intro ha hnone
    rw [hnone, step_db ha hs]
    rfl
  cases a with
  | runGroup k faults commitFault =>
      cases stepped hs with
      | @runGroup _ model is rest _ _ hw =>
          have hmem := List.mem_of_getElem? hw
          have hmodel : ∀ i ∈ is, ∃ t, q.objects[i]? = some t ∧ t.accepted.modelClass = model :=
            hgroups _ hmem (model, is) List.mem_cons_self
          have hgroup : q.applied models (.runGroup k faults commitFault) =
              q.groupApplied models model is faults commitFault := by
            simp only [applied, hw]
          have hdb : ((q.executeModelBatch models model is faults commitFault).afterGroup k rest).db =
              (q.executeModelBatch models model is faults commitFault).db := by
            cases rest <;> rfl
          rw [hgroup, hdb]
          have happlied : ∀ i ∈ q.groupApplied models model is faults commitFault,
              ∃ t, q.objects[i]? = some t ∧ t.accepted.modelClass = model :=
            fun i hi => hmodel i (mem_groupApplied hi)
          by_cases hm : m = model
          · subst hm
            obtain ⟨hnodup, hopen⟩ := hc.group hw
            rw [keepsReports, hw] at hkeep
            rw [replay_acceptedWrites happlied]
            refine executeModelBatch_db hnodup (fun i hi => ?_) hkeep
            obtain ⟨-, t, ht, hwrite⟩ := hopen i hi
            obtain ⟨t', ht', hclass⟩ := hmodel i hi
            obtain rfl := Option.some.inj (ht.symm.trans ht')
            refine ⟨t, ht, ?_, fun table => ?_⟩
            · rw [hwrite.write]
              exact hordinary t (List.mem_of_getElem? ht) hclass
            · rw [ht, hwrite.write]
              rfl
          · rw [executeModelBatch_db_ne hm]
            refine replay_ne (fun w hw => ?_) _
            obtain ⟨i, hi, hw⟩ := List.mem_filterMap.mp hw
            obtain ⟨t, ht, hclass⟩ := happlied i hi
            rw [ht, Option.map_some, Option.some.injEq] at hw
            rw [← hw, hclass]
            exact Ne.symm hm
  | _ => exact hidle (fun _ _ _ => by simp) rfl

/-- What a run accounts for: its queue, its groups and the tasks it applied. -/
structure Logged (q : AsyncWriteQueue V) (log : List ℕ) : Prop where
  conserved : q.Conserved
  inGroups : q.InGroups
  valid : ∀ i ∈ log, i < q.objects.length

theorem Logged.step {log : List ℕ} {a : Action V} (h : Logged q log) (hplain : a.Plain)
    (hkeep : q.keepsReports models a = true) (hs : q.step models a = some q') :
    Logged q' (log ++ q.applied models a) ∧
      ∀ i ∈ log ++ q.applied models a, ∃ t t', q.objects[i]? = some t ∧
        q'.objects[i]? = some t' ∧ t'.accepted = t.accepted := by
  have hall : ∀ i ∈ log ++ q.applied models a, ∃ t t', q.objects[i]? = some t ∧
      q'.objects[i]? = some t' ∧ t'.accepted = t.accepted := by
    intro i hi
    have hlt : i < q.objects.length := by
      rcases List.mem_append.mp hi with hi | hi
      · exact h.valid i hi
      · obtain ⟨t, ht, -⟩ := h.conserved.live i (Multiset.mem_add.mpr (.inr (mem_applied hi)))
        exact (List.getElem?_eq_some_iff.mp ht).1
    have ht := List.getElem?_eq_getElem hlt
    obtain ⟨t', ht', haccepted⟩ := accepted_step h.conserved hplain hs ht
    exact ⟨_, t', ht, ht', haccepted⟩
  refine ⟨⟨h.conserved.step hplain hkeep hs, h.inGroups.step h.conserved hplain hs,
    fun i hi => ?_⟩, hall⟩
  obtain ⟨-, t', -, ht', -⟩ := hall i hi
  exact (List.getElem?_eq_some_iff.mp ht').1

theorem logged_initial {maxQueueSize batchSize maxWorkers : ℕ} {db : String → Table V} :
    Logged (initial maxQueueSize batchSize maxWorkers db) [] :=
  ⟨conserved_initial, fun _ h => absurd h List.not_mem_nil, fun _ h => absurd h List.not_mem_nil⟩

/-- In every run that takes nothing back, the table of a model with ordinary writes is what
the applied writes make of the initial one, one after the other. -/
theorem replay_run {maxQueueSize batchSize maxWorkers : ℕ} {db : String → Table V}
    {as : List (Action V)} (hplain : ∀ a ∈ as, a.Plain)
    (hkeep : PartialRun.Along (step models) (fun q a => q.keepsReports models a = true)
      (initial maxQueueSize batchSize maxWorkers db) as)
    (hrun : PartialRun.exec (step models) (initial maxQueueSize batchSize maxWorkers db) as =
      some q) {m : String}
    (hordinary : ∀ t ∈ q.objects, t.accepted.modelClass = m → t.accepted.Ordinary models) :
    replay models m (q.acceptedWrites (appliedRun models
      (initial maxQueueSize batchSize maxWorkers db) as)) (db m) = some (q.db m) := by
  let q₀ := initial maxQueueSize batchSize maxWorkers db
  have hinv : PartialRun.exec (step models) q₀ as = some q ∧ Logged q (appliedRun models q₀ as) ∧
      ((∀ t ∈ q.objects, t.accepted.modelClass = m → t.accepted.Ordinary models) →
        replay models m (q.acceptedWrites (appliedRun models q₀ as)) (db m) = some (q.db m)) := by
    refine PartialRun.invariant_of_history
      (I := fun pre q => PartialRun.exec (step models) q₀ pre = some q ∧
        Logged q (appliedRun models q₀ pre) ∧
        ((∀ t ∈ q.objects, t.accepted.modelClass = m → t.accepted.Ordinary models) →
          replay models m (q.acceptedWrites (appliedRun models q₀ pre)) (db m) = some (q.db m)))
      (P := fun _ q a => q.keepsReports models a = true ∧ a.Plain) ?_ ?_ ?_ hrun
    · rintro pre u a v ⟨hpre, hlog, h⟩ ⟨hk, hp⟩ hs
      obtain ⟨hlog', hsame⟩ := hlog.step hp hk hs
      rw [appliedRun_concat hpre hs]
      refine ⟨?_, hlog', fun hord => ?_⟩
      · exact PartialRun.exec_append_eq_some.mpr
          ⟨u, hpre, PartialRun.exec_cons_eq_some.mpr ⟨v, hs, rfl⟩⟩
      · have hordu : ∀ t ∈ u.objects, t.accepted.modelClass = m → t.accepted.Ordinary models := by
          intro t ht hm
          obtain ⟨j, hj⟩ := List.mem_iff_getElem?.mp ht
          obtain ⟨t', ht', haccepted⟩ := accepted_step hlog.conserved hp hs hj
          rw [← haccepted] at hm ⊢
          exact hord t' (List.mem_of_getElem? ht') hm
        have hwrites : v.acceptedWrites (appliedRun models q₀ pre ++ u.applied models a) =
            u.acceptedWrites (appliedRun models q₀ pre ++ u.applied models a) := by
          refine List.filterMap_congr fun i hi => ?_
          obtain ⟨t, t', ht, ht', haccepted⟩ := hsame i hi
          rw [ht, ht', Option.map_some, Option.map_some, haccepted]
        rw [hwrites, acceptedWrites, List.filterMap_append, replay_append]
        have hbefore := h hordu
        rw [acceptedWrites] at hbefore
        rw [hbefore, Option.bind_some]
        exact replay_step hlog.conserved hlog.inGroups hk hs hordu
    · exact ⟨rfl, logged_initial, fun _ => rfl⟩
    · intro pre a post he u hu
      exact ⟨PartialRun.along_iff_split.mp hkeep pre a post he u hu, hplain a (by simp [he])⟩
  exact hinv.2.2 hordinary

end

end AsyncWriteQueue

end SmartMedia.WriteQueue
