import SmartMedia.WriteQueue.Applied

/-!
# In which order are the writes to a row applied?

The sequence number orders the heap, but two workers commit their groups in any order, a
retry goes back to the heap behind later writes of its row, and a session flushes added
instances after everything else. `applied` lists the tasks in the order in which commits
bring their writes to the database. The rows are told from the writes by any function:
`rowOfId` is the one by the primary key.
-/
set_option linter.unusedSectionVars false

namespace SmartMedia.WriteQueue

universe u

variable {V : Type u} [DecidableEq V]

/-- The row that a write other than an INSERT names by its `id`. -/
def Write.rowOfId (models : Models V) (w : Write V) : Option (String × V) :=
  if w.operation = .insert then none
  else (models.key w.data "id").map fun id => (w.modelClass, id)

/-- The execution of a write raises, in a turn that takes nothing back. -/
def Write.raises (models : Models V) (w : Write V) (fault : Option Fault) : Bool :=
  let statement := (fault.bind Fault.atStatement).isSome
  match w.operation with
  | .insert => (models.constructorError w.modelClass w.data).isSome || statement
  | .update => (models.key w.data "id").isSome && statement
  | .delete => (models.key w.data "id").isSome && statement
  | .upsert =>
      match models.createOrUpdate w.modelClass with
      | some _ => statement
      | none => (models.constructorError w.modelClass w.data).isSome &&
          ((models.key w.data "id").or (models.key w.data "file_id")).isSome && statement

/-- The execution of a write adds an instance, which the next commit inserts. -/
def Write.adds (models : Models V) (w : Write V) (s : Session V) : Bool :=
  match w.operation with
  | .insert => true
  | .update => false
  | .delete => false
  | .upsert =>
      match models.createOrUpdate w.modelClass with
      | some hook => !hook.commits && !(hook.run w.data s.rows).2.isEmpty
      | none => (models.constructorError w.modelClass w.data).isNone

namespace AsyncWriteQueue

section Rows
variable {κ : Type*} [DecidableEq κ] (row : Write V → Option κ)

/-- The accepted write of task `i` is one to the row `r`. -/
def onRow (q : AsyncWriteQueue V) (r : κ) (i : ℕ) : Bool :=
  (q.objects[i]?).any fun t => row t.accepted = some r

def sameRow (q : AsyncWriteQueue V) (i j : ℕ) : Bool :=
  (q.objects[i]?).any fun t => (row t.accepted).any fun r => q.onRow row r j

/-- A turn that raises, or adds an instance, is the last of the group to its row. -/
def looseLast (models : Models V) :
    AsyncWriteQueue V → Session V → List ℕ → List (Option Fault) → Bool
  | _, _, [], _ => true
  | q, s, i :: is, faults =>
      let out := runTask models q s i (faults.headD none)
      (q.objects[i]?).all (fun t =>
        !(t.write.raises models (faults.headD none) || t.write.adds models s) ||
          is.all fun j => !q.sameRow row i j) &&
        looseLast models out.1 out.2 is faults.tail

/-- A group takes nothing back, has its writes to a row in the order of submission and
the last of them only may raise or add an instance, and no earlier write to one of its
rows is anywhere else. -/
def groupInOrder (models : Models V) (q : AsyncWriteQueue V) (model : String) (is : List ℕ)
    (faults : List (Option Fault)) (commitFault : Option String) : Bool :=
  groupKeeps models q model is faults commitFault &&
    (!models.registered model ||
      (is.all fun i => (q.queue ++ q.workers.flatMap Worker.tasks).all fun j =>
        j ∈ is || !q.sameRow row i j || i ≤ j) &&
      decide (is.Pairwise fun i j => q.sameRow row i j = true → i < j) &&
      looseLast row models q (Session.begin (q.db model)) is faults)

/-- What a step must meet for the rows to keep their order. -/
def keepsRows (models : Models V) (q : AsyncWriteQueue V) : Action V → Bool
  | .runGroup k faults commitFault =>
      match q.workers[k]? with
      | some (.executing ((model, is) :: _)) => q.groupInOrder row models model is faults commitFault
      | _ => true
  | _ => true

end Rows

end AsyncWriteQueue

/-- What a turn that takes nothing back leaves of the session: the task is held, or it is
committed with all that were held, or it raised. -/
inductive SessionTurn (models : Models V) (i : ℕ) (w : Write V) (fault : Option Fault)
    (s : Session V) : Attempt V → Prop
  | held {w' : Write V} {s' : Session V} : s'.committed = s.committed → s'.held = s.held ++ [i] →
      (s.added.length < s'.added.length → w.adds models s = true) →
      SessionTurn models i w fault s ⟨w', s', none⟩
  | committed {w' : Write V} {s' : Session V} :
      s'.committed = s.committed ++ (s.held ++ [i]) → s'.held = [] → s'.added = [] →
      SessionTurn models i w fault s ⟨w', s', none⟩
  | raised {w' : Write V} {s' : Session V} {e : String} : s'.committed = s.committed →
      s'.held = s.held → s'.added.length ≤ s.added.length → w.raises models fault = true →
      SessionTurn models i w fault s ⟨w', s', some e⟩

section Turns
variable {models : Models V} {i : ℕ} {w : Write V} {fault : Option Fault} {s : Session V}

@[simp] theorem Session.assign_added (s : Session V) (id : V) (fields : Data V) :
    (s.assign id fields).added = s.added := by
  unfold Session.assign
  split <;> rfl

theorem sessionTurn_insert (hop : w.operation = .insert) :
    SessionTurn models i w fault s (executeInsert models i w fault s) := by
  have hadds : w.adds models s = true := by rw [Write.adds, hop]
  rw [executeInsert]
  cases herr : (models.constructorError w.modelClass w.data).or (fault.bind Fault.atStatement) with
  | none => exact .held rfl rfl fun _ => hadds
  | some e =>
      refine .raised rfl rfl le_rfl ?_
      rw [Write.raises, hop]
      cases hc : models.constructorError w.modelClass w.data with
      | some e' => rfl
      | none =>
          rw [hc, Option.none_or] at herr
          rw [herr]
          rfl

theorem sessionTurn_update (hop : w.operation = .update)
    (hk : keepsWrites models w fault s = true) (hb : s.broken = none) :
    SessionTurn models i w fault s (executeUpdate models i w fault s) := by
  simp only [keepsWrites, hop] at hk
  simp only [executeUpdate]
  cases hkey : models.key w.data "id" with
  | none => exact .held rfl rfl fun h => absurd h (lt_irrefl _)
  | some id =>
      have hfault : fault.bind Fault.atStatement = none := by simpa [hkey] using hk
      rw [hb, hfault]
      refine .held ?_ ?_ fun h => ?_
      · exact Session.assign_committed s id _
      · show (s.assign id _).held ++ [i] = s.held ++ [i]
        rw [Session.assign_held]
      · have hsame : ((s.assign id (w.data.erase "id")).hold i).added = s.added :=
          Session.assign_added s id _
        rw [hsame] at h
        exact absurd h (lt_irrefl _)

theorem sessionTurn_delete (hop : w.operation = .delete) (hb : s.broken = none) :
    SessionTurn models i w fault s (executeDelete models i w fault s) := by
  simp only [executeDelete]
  cases hkey : models.key w.data "id" with
  | none => exact .held rfl rfl fun h => absurd h (lt_irrefl _)
  | some id =>
      rw [hb, Option.none_or]
      cases hfault : fault.bind Fault.atStatement with
      | none => exact .held rfl rfl fun h => absurd h (lt_irrefl _)
      | some e =>
          refine .raised rfl rfl le_rfl ?_
          rw [Write.raises, hop, hkey, hfault]
          rfl

theorem sessionTurn_hook {hook : CreateOrUpdate V} (hop : w.operation = .upsert)
    (hhook : models.createOrUpdate w.modelClass = some hook)
    (hk : keepsWrites models w fault s = true) (hb : s.broken = none) :
    SessionTurn models i w fault s (executeHook models i w fault s hook) := by
  simp only [keepsWrites, hop, hhook] at hk
  simp only [executeHook, hb, Option.none_or]
  cases hfault : fault.bind Fault.atStatement with
  | some e =>
      refine .raised rfl rfl le_rfl ?_
      rw [Write.raises, hop, hhook, hfault]
      rfl
  | none =>
      dsimp only
      split_ifs with hcommits
      · obtain ⟨hcommit, hrefresh, table, htable⟩ : fault.bind Fault.atCommit = none ∧
            fault.bind Fault.atRefresh = none ∧
              ∃ table, (s.afterHook hook w.data).flush models = some table := by
          simpa [hcommits, hfault, Option.isSome_iff_exists, and_assoc] using hk
        have hok : ((s.afterHook hook w.data).hold i).commit models (fault.bind Fault.atCommit) =
            .ok table := Session.commit_eq_ok.mpr ⟨hb, hcommit, htable⟩
        rw [hok, hrefresh]
        exact .committed rfl rfl rfl
      · refine .held rfl rfl fun h => ?_
        rw [Write.adds, hop, hhook]
        have hgrow : s.added.length < (s.added ++ (hook.run w.data s.rows).2).length := h
        rw [List.length_append] at hgrow
        have hne : (hook.run w.data s.rows).2 ≠ [] := by
          intro he
          rw [he] at hgrow
          simp at hgrow
        simp [hcommits, hne]

theorem sessionTurn_fallback (hop : w.operation = .upsert)
    (hhook : models.createOrUpdate w.modelClass = none)
    (herr : (models.constructorError w.modelClass w.data).isSome) (hheld : s.held = []) :
    SessionTurn models i w fault s (executeFallback models i w fault s) := by
  simp only [executeFallback]
  cases hkey : (models.key w.data "id").or (models.key w.data "file_id") with
  | none => exact .held rfl (by rw [hheld]; rfl) fun h => absurd h (by simp [Session.hold, Session.rollback])
  | some id =>
      cases hfault : fault.bind Fault.atStatement with
      | some e =>
          refine .raised rfl hheld.symm (Nat.zero_le _) ?_
          rw [Write.raises, hop, hhook, hfault, hkey, herr]
          rfl
      | none =>
          cases hrow : fallbackRow models w id s.rollback.rows with
          | none =>
              simp only [hrow]
              exact .held rfl (by rw [hheld]; rfl) fun h =>
                absurd h (by simp [Session.hold, Session.rollback])
          | some row =>
              simp only [hrow]
              refine .held ?_ ?_ fun h => absurd h ?_
              · exact Session.assign_committed s.rollback row _
              · show (s.rollback.assign row _).held ++ [i] = s.held ++ [i]
                rw [Session.assign_held, hheld]
                rfl
              · show ¬ s.added.length < (s.rollback.assign row (w.data.erase "id")).added.length
                rw [Session.assign_added]
                exact Nat.not_lt_zero _

theorem sessionTurn (hk : keepsWrites models w fault s = true) (hb : s.broken = none) :
    SessionTurn models i w fault s (executeSingleTask models i w fault s) := by
  rw [executeSingleTask]
  cases hop : w.operation with
  | insert => exact sessionTurn_insert hop
  | update => exact sessionTurn_update hop hk hb
  | delete => exact sessionTurn_delete hop hb
  | upsert =>
      dsimp only
      cases hhook : models.createOrUpdate w.modelClass with
      | some hook => exact sessionTurn_hook hop hhook hk hb
      | none =>
          cases herr : models.constructorError w.modelClass w.data with
          | none =>
              refine .held rfl rfl fun _ => ?_
              rw [Write.adds, hop, hhook, herr]
              rfl
          | some e =>
              refine sessionTurn_fallback hop hhook (by rw [herr]; rfl) ?_
              simp only [keepsWrites, hop, hhook, herr] at hk
              simpa using hk

end Turns

section Flush
variable {late l : List ℕ} {p : ℕ → Bool}

/-- Only the last of these tasks waits for the flush: then it changes nothing. -/
theorem flushOrder_of_pairwise (h : l.Pairwise fun i _ => i ∉ late) : flushOrder late l = l := by
  induction l with
  | nil => rfl
  | cons i l ih =>
      rw [List.pairwise_cons] at h
      have hrest := ih h.2
      rw [flushOrder] at hrest ⊢
      by_cases hi : i ∈ late
      · cases l with
        | nil => simp [hi]
        | cons j l => exact absurd hi (h.1 j List.mem_cons_self)
      · rw [List.filter_cons, if_pos (by simpa using hi), List.filter_cons, if_neg (by simpa using hi),
          List.cons_append, hrest]

theorem filter_flushOrder (h : (l.filter p).Pairwise fun i _ => i ∉ late) :
    (flushOrder late l).filter p = l.filter p := by
  have hsame : (flushOrder late l).filter p = flushOrder late (l.filter p) := by
    simp only [flushOrder, List.filter_append, List.filter_filter, Bool.and_comm]
  rw [hsame, flushOrder_of_pairwise h]

/-- The tasks that wait, with one more that is the last of the list. -/
theorem pairwise_notMem_concat {i : ℕ} {l' : List ℕ}
    (h : ((l ++ i :: l').filter p).Pairwise fun j _ => j ∉ late) (hi : i ∉ l)
    (hlast : p i = true → l'.filter p = []) :
    ((l ++ i :: l').filter p).Pairwise fun j _ => j ∉ late ++ [i] := by
  have hne : ((l ++ i :: l').filter p).Pairwise fun j _ => j ≠ i := by
    by_cases hp : p i = true
    · rw [List.filter_append, List.filter_cons_of_pos hp, hlast hp, List.pairwise_append]
      have hl : ∀ j ∈ l.filter p, j ≠ i := fun j hj he => hi (he ▸ List.mem_of_mem_filter hj)
      exact ⟨List.pairwise_of_forall_mem_list fun j hj _ _ => hl j hj, List.pairwise_singleton _ _,
        fun j hj _ _ => hl j hj⟩
    · refine List.pairwise_of_forall_mem_list fun j hj _ _ he => ?_
      have hpj := List.of_mem_filter hj
      rw [he] at hpj
      exact hp hpj
  refine (h.and hne).imp fun hj hmem => ?_
  rcases List.mem_append.mp hmem with hmem | hmem
  · exact hj.1 hmem
  · exact hj.2 (List.mem_singleton.mp hmem)

theorem pairwise_mem_cons {i : ℕ} {done : List ℕ} (h : (l.filter p).Pairwise fun j _ => j ∈ done) :
    ((i :: l).filter p).Pairwise fun j _ => j ∈ i :: done := by
  have hrest : (l.filter p).Pairwise fun j _ => j ∈ i :: done :=
    h.imp fun hj => List.mem_cons_of_mem i hj
  by_cases hp : p i = true
  · rw [List.filter_cons_of_pos hp]
    exact List.pairwise_cons.mpr ⟨fun _ _ => List.mem_cons_self, hrest⟩
  · rw [List.filter_cons_of_neg hp]
    exact hrest

/-- Two elements of a list in the order in which the list has them. -/
theorem pairwise_or {r : ℕ → ℕ → Prop} (h : l.Pairwise r) {i j : ℕ} (hi : i ∈ l) (hj : j ∈ l)
    (hne : i ≠ j) : r i j ∨ r j i := by
  have hsymm : Std.Symm fun i j => r i j ∨ r j i := ⟨fun _ _ => Or.symm⟩
  exact (h.imp fun hr => .inl hr : l.Pairwise fun i j => r i j ∨ r j i).forall hi hj hne

end Flush

namespace AsyncWriteQueue

section Rows
variable {κ : Type*} [DecidableEq κ] {row : Write V → Option κ} {models : Models V}
  {q q' : AsyncWriteQueue V} {is : List ℕ} {i j : ℕ} {r : κ}

/-- Executing tasks changes no row. -/
theorem onRow_evolves (h : Evolves is q q') (r : κ) (i : ℕ) :
    q'.onRow row r i = q.onRow row r i := by
  rw [onRow, onRow]
  cases hi : q.objects[i]? with
  | none =>
      have hnone : q'.objects[i]? = none := by
        rw [List.getElem?_eq_none_iff] at hi ⊢
        rw [h.length]
        exact hi
      rw [hnone]
  | some t =>
      obtain ⟨t', ht', hsteps, -⟩ := h.object hi
      rw [ht', Option.any_some, Option.any_some, accepted_steps hsteps]

theorem sameRow_of_onRow (hi : q.onRow row r i = true) (hj : q.onRow row r j = true) :
    q.sameRow row i j = true := by
  rw [onRow, Option.any_eq_true] at hi
  obtain ⟨t, ht, hrow⟩ := hi
  rw [sameRow, ht, Option.any_some, of_decide_eq_true hrow, Option.any_some]
  exact hj

theorem runTask_turn {t : WriteTask V} {fault : Option Fault} {s : Session V}
    (ht : q.objects[i]? = some t) (hk : keepsWrites models t.write fault s = true)
    (hb : s.broken = none) : ∃ a, SessionTurn models i t.write fault s a ∧
      (runTask models q s i fault).2 = a.session ∧ a.session.broken = none := by
  refine ⟨_, sessionTurn hk hb, ?_, (turned (i := i) hk hb).broken⟩
  simp only [runTask, ht]
  split <;> rfl

/-- A loop over the tasks `is` goes from the session `s` to `s'` and its commits apply `applied`:
with what the commit after it will flush, of the row that `onRow` tells these are the writes
of `done`, in their order, and only the last of the row may be missing. -/
structure RowApplied (onRow : ℕ → Bool) (s s' : Session V) (is applied late done : List ℕ) :
    Prop where
  sub : done.Sublist is
  filter : (applied ++ flushOrder late s'.held).filter onRow = (s.held ++ done).filter onRow
  tasks : s'.tasks = s.tasks ++ done
  row : (is.filter onRow).Pairwise fun i _ => i ∈ done

namespace RowApplied
variable {onRow : ℕ → Bool} {s s₁ s' : Session V} {applied late late₁ done : List ℕ}

/-- One more turn at the front, whose task is held. -/
theorem held (h : RowApplied onRow s₁ s' is applied late done)
    (hcommitted : s₁.committed = s.committed) (hheld : s₁.held = s.held ++ [i]) :
    RowApplied onRow s s' (i :: is)
      (flushOrder late₁ (s₁.committed.drop s.committed.length) ++ applied) late (i :: done) where
  sub := h.sub.cons_cons i
  filter := by
    rw [hcommitted, List.drop_length, flushOrder, List.filter_nil, List.filter_nil,
      List.append_nil, List.nil_append, h.filter, hheld, List.append_assoc]
    rfl
  tasks := by
    rw [h.tasks, Session.tasks, Session.tasks, hcommitted, hheld]
    simp
  row := pairwise_mem_cons h.row

/-- One more turn at the front, which commits its task and all that were held. -/
theorem committed (h : RowApplied onRow s₁ s' is applied late done)
    (hcommitted : s₁.committed = s.committed ++ (s.held ++ [i])) (hheld : s₁.held = [])
    (hflush : (flushOrder late₁ (s.held ++ [i])).filter onRow = (s.held ++ [i]).filter onRow) :
    RowApplied onRow s s' (i :: is)
      (flushOrder late₁ (s₁.committed.drop s.committed.length) ++ applied) late (i :: done) where
  sub := h.sub.cons_cons i
  filter := by
    rw [hcommitted, List.drop_left, List.append_assoc, List.filter_append, h.filter, hflush, hheld,
      List.nil_append, ← List.filter_append, List.append_assoc]
    rfl
  tasks := by
    rw [h.tasks, Session.tasks, Session.tasks, hcommitted, hheld]
    simp
  row := pairwise_mem_cons h.row

/-- One more turn at the front, which raises; no later task is one to its row. -/
theorem raised (h : RowApplied onRow s₁ s' is applied late done)
    (hcommitted : s₁.committed = s.committed) (hheld : s₁.held = s.held)
    (hlast : onRow i = true → is.filter onRow = []) :
    RowApplied onRow s s' (i :: is)
      (flushOrder late₁ (s₁.committed.drop s.committed.length) ++ applied) late done where
  sub := h.sub.cons i
  filter := by
    rw [hcommitted, List.drop_length, flushOrder, List.filter_nil, List.filter_nil,
      List.append_nil, List.nil_append, h.filter, hheld]
  tasks := by rw [h.tasks, Session.tasks, Session.tasks, hcommitted, hheld]
  row := by
    by_cases hon : onRow i = true
    · rw [List.filter_cons_of_pos hon, hlast hon]
      exact List.pairwise_singleton _ _
    · rw [List.filter_cons_of_neg hon]
      exact h.row

end RowApplied

/-- What the loop of a group applies of one row, with what the commit after it will
flush: the writes that do not raise, in their order. -/
theorem turnsApplied_row {s : Session V} {late : List ℕ} {faults : List (Option Fault)}
    (hvalid : ∀ i ∈ is, i < q.objects.length) (hnodup : is.Nodup)
    (hkeep : everyTurnKeeps models q s is faults = true)
    (hloose : looseLast row models q s is faults = true) (hb : s.broken = none)
    (hheld : ∀ i ∈ s.held, i ∉ is) (hlate : ((s.held ++ is).filter (q.onRow row r)).Pairwise
      fun i _ => i ∉ late) :
    ∃ done, RowApplied (q.onRow row r) s (runTasks models q s is faults).2 is
      (turnsApplied models q s late is faults).1 (turnsApplied models q s late is faults).2 done := by
  induction is generalizing q s late faults with
  | nil =>
      refine ⟨[], .refl _, ?_, (List.append_nil _).symm, .nil⟩
      rw [List.append_nil] at hlate
      rw [turnsApplied, runTasks, List.nil_append, List.append_nil, filter_flushOrder hlate]
  | cons i is ih =>
      obtain ⟨t, ht⟩ : ∃ t, q.objects[i]? = some t :=
        ⟨_, List.getElem?_eq_getElem (hvalid i List.mem_cons_self)⟩
      rw [everyTurnKeeps, Bool.and_eq_true, ht, Option.all_some] at hkeep
      rw [looseLast, Bool.and_eq_true, ht, Option.all_some] at hloose
      rw [List.nodup_cons] at hnodup
      have hevolves : Evolves [i] q (runTask models q s i (faults.headD none)).1 :=
        .runTask models s List.mem_cons_self _
      have hrow : onRow row (runTask models q s i (faults.headD none)).1 r = onRow row q r :=
        funext (onRow_evolves hevolves r)
      have hlast : q.onRow row r i = true → (t.write.raises models (faults.headD none) ||
          t.write.adds models s) = true → is.filter (q.onRow row r) = [] := by
        intro hon hbad
        have hall := hloose.1
        rw [hbad, Bool.not_true, Bool.false_or, List.all_eq_true] at hall
        refine List.filter_eq_nil_iff.mpr fun j hj hjon => ?_
        have hnot := hall j hj
        rw [sameRow_of_onRow hon hjon] at hnot
        cases hnot
      obtain ⟨a, hturn, hsession, hbroken⟩ := runTask_turn ht hkeep.1 hb
      rw [← hsession] at hbroken
      -- the rest of the loop, for any tasks that wait
      have hnext := fun late' => @ih (runTask models q s i (faults.headD none)).1
        (runTask models q s i (faults.headD none)).2 late' faults.tail
        (fun j hj => hevolves.length ▸ hvalid j (List.mem_cons_of_mem i hj)) hnodup.2 hkeep.2
        hloose.2 hbroken
      simp only [hrow] at hnext
      rw [turnsApplied, runTasks]
      generalize runTask models q s i (faults.headD none) = out at hnext hsession ⊢
      have hstay : ∀ j ∈ s.held, j ∉ is := fun j hj hmem => hheld j hj (List.mem_cons_of_mem i hmem)
      have hfirst : i ∉ s.held := fun hmem => hheld i hmem List.mem_cons_self
      cases hturn with
      | @held w' s' hcommitted hheld' hadds =>
          subst hsession
          have hlate' : ((out.2.held ++ is).filter (q.onRow row r)).Pairwise fun j _ => j ∉
              if s.added.length < out.2.added.length then late ++ [i] else late := by
            rw [hheld', List.append_assoc, List.singleton_append]
            split_ifs with hgrow
            · exact pairwise_notMem_concat hlate hfirst fun hon =>
                hlast hon (by rw [hadds hgrow, Bool.or_true])
            · exact hlate
          have hstay' : ∀ j ∈ out.2.held, j ∉ is := by
            intro j hj
            rw [hheld'] at hj
            exact concat_notMem hheld hnodup.1 j hj
          obtain ⟨done, happlied⟩ := hnext _ hstay' hlate'
          exact ⟨i :: done, happlied.held hcommitted hheld'⟩
      | @committed w' s' hcommitted hheld' hadded =>
          subst hsession
          have hnone : ¬ s.added.length < out.2.added.length := by
            rw [hadded]
            exact Nat.not_lt_zero _
          have hlate' : ((out.2.held ++ is).filter (q.onRow row r)).Pairwise fun j _ => j ∉ late := by
            rw [hheld', List.nil_append]
            refine hlate.sublist (List.Sublist.filter _ ?_)
            exact ((List.sublist_cons_self i is).trans (List.sublist_append_right _ _))
          have hflush : (flushOrder late (s.held ++ [i])).filter (q.onRow row r) =
              (s.held ++ [i]).filter (q.onRow row r) := by
            refine filter_flushOrder (hlate.sublist (List.Sublist.filter _ ?_))
            exact (List.Sublist.refl s.held).append (List.singleton_sublist.mpr List.mem_cons_self)
          obtain ⟨done, happlied⟩ := hnext late
            (by rw [hheld']; exact fun j hj => absurd hj List.not_mem_nil) hlate'
          rw [if_neg hnone]
          exact ⟨i :: done, happlied.committed hcommitted hheld' hflush⟩
      | @raised w' s' e hcommitted hheld' hadded hraises =>
          subst hsession
          have hnone : ¬ s.added.length < out.2.added.length := by omega
          have hsub : (s.held ++ is).Sublist (s.held ++ i :: is) :=
            (List.Sublist.refl s.held).append (List.sublist_cons_self i is)
          obtain ⟨done, happlied⟩ := hnext late (hheld' ▸ hstay)
            (hheld' ▸ hlate.sublist (hsub.filter _))
          rw [if_neg hnone]
          refine ⟨done, happlied.raised hcommitted hheld' fun hon => hlast hon ?_⟩
          rw [hraises, Bool.true_or]

/-- A write of task `i` was committed. -/
def committed (q : AsyncWriteQueue V) (i : ℕ) : Bool :=
  (q.objects[i]?).any fun t => !t.commits.isEmpty

theorem committed_modify {f : WriteTask V → WriteTask V} (hf : ∀ t, (f t).commits = t.commits)
    (i j : ℕ) : (q.modify i f).committed j = q.committed j := by
  rw [committed, committed, modify, List.getElem?_modify]
  by_cases h : i = j
  · cases q.objects[j]? with
    | none => rfl
    | some t => simp [h, hf]
  · simp [h]

theorem committed_failTask (i j : ℕ) (e : String) : (q.failTask i e).committed j = q.committed j :=
  committed_modify (fun t => show (t.fail e).commits = t.commits from rfl) i j

theorem committed_retryTask (i j : ℕ) (e : String) :
    (q.retryTask i e).committed j = q.committed j := by
  have hcount : (q.modify i WriteTask.countRetry).committed j = q.committed j :=
    committed_modify (fun t => show t.countRetry.commits = t.commits from rfl) i j
  rw [retryTask]
  split
  · exact hcount
  · split_ifs
    · exact (committed_failTask i j e).trans hcount
    · have hraise := committed_modify (q := q.modify i WriteTask.countRetry)
        (fun t => show t.raisePriority.commits = t.commits from rfl) i j
      exact hraise.trans hcount

theorem committed_runTask (s : Session V) (i j : ℕ) (fault : Option Fault) :
    (runTask models q s i fault).1.committed j = q.committed j := by
  rw [runTask]
  split
  · rfl
  · rename_i t _
    have hattempt := committed_modify (q := q) (fun t' => show (t'.attempt
      (executeSingleTask models i t.write fault s).write).commits = t'.commits from rfl) i j
    dsimp only
    split
    · exact (committed_modify (fun t => show t.succeed.commits = t.commits from rfl) i j).trans hattempt
    · exact (committed_retryTask i j _).trans hattempt

/-- Executing tasks commits none of them in the database. -/
theorem committed_runTasks (s : Session V) (j : ℕ) (faults : List (Option Fault)) :
    (runTasks models q s is faults).1.committed j = q.committed j := by
  induction is generalizing q s faults with
  | nil => rfl
  | cons i is ih =>
      rw [runTasks, ih]
      exact committed_runTask s i j _

theorem committed_failTasks (j : ℕ) (e : String) :
    (is.foldl (fun q i => q.failTask i e) q).committed j = q.committed j := by
  induction is generalizing q with
  | nil => rfl
  | cons i is ih =>
      rw [List.foldl_cons, ih]
      exact committed_failTask i j e

theorem committed_markCommitted (hvalid : ∀ i ∈ is, i < q.objects.length) :
    (q.markCommitted is).committed j = true ↔ q.committed j = true ∨ j ∈ is := by
  induction is generalizing q with
  | nil => simp [markCommitted]
  | cons i is ih =>
      rw [List.forall_mem_cons] at hvalid
      have hlen : (q.modify i WriteTask.commit).objects.length = q.objects.length :=
        List.length_modify _ _ _
      have hone : (q.modify i WriteTask.commit).committed j = true ↔ q.committed j = true ∨ j = i := by
        by_cases h : i = j
        · subst h
          have hself := modify_object (List.getElem?_eq_getElem hvalid.1) WriteTask.commit
          simp [committed, hself, WriteTask.commit]
        · rw [committed, committed, modify, List.getElem?_modify]
          simp [h, Ne.symm h]
      have hrest := ih (q := q.modify i WriteTask.commit) (hlen ▸ hvalid.2)
      rw [markCommitted, List.foldl_cons]
      rw [markCommitted] at hrest
      rw [hrest, hone, List.mem_cons, or_assoc]

/-- A group whose commit goes through has committed its session's tasks, and no other. -/
theorem committed_executeModelBatch {model : String} {faults : List (Option Fault)}
    {commitFault : Option String} {table : Table V} (hvalid : ∀ i ∈ is, i < q.objects.length)
    (hreg : models.registered model = true)
    (hcommit : (runTasks models q (Session.begin (q.db model)) is faults).2.commit models
      commitFault = .ok table) (j : ℕ) :
    (q.executeModelBatch models model is faults commitFault).committed j = true ↔
      q.committed j = true ∨
        j ∈ (runTasks models q (Session.begin (q.db model)) is faults).2.tasks := by
  have hin : ∀ i ∈ (runTasks models q (Session.begin (q.db model)) is faults).2.tasks,
      i < (runTasks models q (Session.begin (q.db model)) is faults).1.objects.length := by
    intro i hi
    have hevolves : Evolves is q (runTasks models q (Session.begin (q.db model)) is faults).1 :=
      .runTasks models _ is (fun _ h => h) faults
    rw [hevolves.length]
    exact hvalid i ((Evolves.runTasks_session models _ is faults i hi).resolve_left
      List.not_mem_nil)
  have hbatch : (q.executeModelBatch models model is faults commitFault).committed j =
      ((runTasks models q (Session.begin (q.db model)) is faults).1.markCommitted
        (runTasks models q (Session.begin (q.db model)) is faults).2.tasks).committed j := by
    rw [executeModelBatch, if_pos hreg]
    simp only [closeSession, hcommit]
    rfl
  rw [hbatch, committed_markCommitted hin, committed_runTasks]

/-- A step applies these writes to the row `r`: in their order, none before an earlier one
that still waits, and their tasks are the ones that get committed. -/
structure AppliesInOrder (row : Write V → Option κ) (q q' : AsyncWriteQueue V) (r : κ)
    (new : List ℕ) : Prop where
  onRow : ∀ i ∈ new, q.onRow row r i = true
  inHand : ∀ i ∈ new, i ∈ q.inHand
  sorted : new.Pairwise (· < ·)
  first : ∀ i ∈ new, ∀ j ∈ (q.queue : Multiset ℕ) + q.inHand, q.onRow row r j = true →
    j ∉ new → i < j
  committed : ∀ j, q.onRow row r j = true → (q'.committed j = true ↔ q.committed j = true ∨ j ∈ new)

/-- Nothing is applied. -/
theorem AppliesInOrder.nothing (h : ∀ j, q'.committed j = q.committed j) :
    AppliesInOrder row q q' r [] := by
  refine ⟨fun i hi => ?_, fun i hi => ?_, .nil, fun i hi => ?_, fun j _ => ?_⟩
  · exact absurd hi List.not_mem_nil
  · exact absurd hi List.not_mem_nil
  · exact absurd hi List.not_mem_nil
  · simp [h]

/-- A group that meets the condition applies its writes to a row in their order. -/
theorem appliesInOrder_group {k : ℕ} {model : String} {rest : List (String × List ℕ)}
    {faults : List (Option Fault)} {commitFault : Option String} (hnodup : is.Nodup)
    (hvalid : ∀ i ∈ is, i < q.objects.length)
    (hw : q.workers[k]? = some (.executing ((model, is) :: rest)))
    (hin : q.groupInOrder row models model is faults commitFault = true) (r : κ) :
    AppliesInOrder row q (q.executeModelBatch models model is faults commitFault) r
      ((q.groupApplied models model is faults commitFault).filter (q.onRow row r)) := by
  by_cases hreg : models.registered model = true
  · rw [groupInOrder, hreg, Bool.not_true, Bool.false_or, Bool.and_eq_true, Bool.and_eq_true,
      Bool.and_eq_true, groupKeeps, hreg, Bool.not_true, Bool.false_or, Bool.and_eq_true] at hin
    obtain ⟨⟨hkeep, hok⟩, ⟨houtside, hinside⟩, hloose⟩ := hin
    obtain ⟨table, hcommit⟩ : ∃ table, (runTasks models q (Session.begin (q.db model)) is
        faults).2.commit models commitFault = .ok table := by
      cases hcommit : (runTasks models q (Session.begin (q.db model)) is faults).2.commit models
          commitFault with
      | error e => simp [hcommit, Except.isOk, Except.toBool] at hok
      | ok table => exact ⟨table, rfl⟩
    have hlate : (((Session.begin (q.db model)).held ++ is).filter (q.onRow row r)).Pairwise
        fun i _ => i ∉ ([] : List ℕ) :=
      List.pairwise_of_forall fun _ _ => List.not_mem_nil
    obtain ⟨done, ⟨hsub, hfilter, htasks, hdone⟩⟩ := turnsApplied_row hvalid hnodup hkeep hloose rfl
      (fun i hi => absurd hi List.not_mem_nil) hlate
    have hnew : (q.groupApplied models model is faults commitFault).filter (q.onRow row r) =
        done.filter (q.onRow row r) := by
      rw [groupApplied, if_pos hreg]
      simp only [hcommit]
      exact hfilter
    have hordered : (is.filter (q.onRow row r)).Pairwise fun i j => i < j ∧ i ∈ done := by
      refine List.Pairwise.and ?_ hdone
      refine ((of_decide_eq_true hinside).filter _).imp_of_mem fun hi hj hlt => hlt ?_
      exact sameRow_of_onRow (List.of_mem_filter hi) (List.of_mem_filter hj)
    rw [hnew]
    refine ⟨fun i hi => List.of_mem_filter hi, fun i hi => ?_, ?_, fun i hi j hj hon hout => ?_,
      fun j hon => ?_⟩
    · have hmem := hsub.subset (List.mem_of_mem_filter hi)
      exact Multiset.mem_coe.mpr (List.mem_flatMap.mpr ⟨_, List.mem_of_getElem? hw,
        by simp [Worker.tasks, hmem]⟩)
    · exact (hordered.sublist (hsub.filter _)).imp fun h => h.1
    · obtain ⟨hi, hion⟩ := List.mem_filter.mp hi
      have hmem := hsub.subset hi
      have hne : i ≠ j := by
        rintro rfl
        exact hout (List.mem_filter.mpr ⟨hi, hion⟩)
      by_cases hjin : j ∈ is
      · have hboth := pairwise_or hordered (List.mem_filter.mpr ⟨hmem, hion⟩)
          (List.mem_filter.mpr ⟨hjin, hon⟩) hne
        rcases hboth with hlt | hlt
        · exact hlt.1
        · exact absurd (List.mem_filter.mpr ⟨hlt.2, hon⟩) hout
      · have hj' : j ∈ q.queue ++ q.workers.flatMap Worker.tasks := by
          rw [inHand, Multiset.coe_add, Multiset.mem_coe] at hj
          exact hj
        have hle := List.all_eq_true.mp (List.all_eq_true.mp houtside i hmem) j hj'
        rw [sameRow_of_onRow hion hon] at hle
        have hle' : i ≤ j := by simpa [hjin] using hle
        omega
    · rw [committed_executeModelBatch hvalid hreg hcommit, htasks, List.mem_filter]
      have hbegin : j ∈ (Session.begin (q.db model)).tasks ++ done ↔ j ∈ done := by
        rw [List.mem_append, or_iff_right]
        exact List.not_mem_nil
      rw [hbegin, and_iff_left hon]
  · rw [groupApplied, if_neg hreg]
    refine .nothing fun j => ?_
    rw [executeModelBatch, if_neg hreg]
    exact committed_failTasks j _

/-- The writes to the row `r` that were applied so far, in that order: every later write
still comes after them. -/
structure InOrder (row : Write V → Option κ) (r : κ) (log : List ℕ) (q : AsyncWriteQueue V) :
    Prop where
  valid : ∀ i ∈ log, i < q.objects.length
  sorted : log.Pairwise (· < ·)
  before : ∀ i ∈ log, ∀ j ∈ (q.queue : Multiset ℕ) + q.inHand, q.onRow row r j = true → i < j
  committed : ∀ j, q.onRow row r j = true → (q.committed j = true ↔ j ∈ log)

/-- A step that makes no task. -/
theorem InOrder.extend {log new : List ℕ} (h : InOrder row r log q)
    (hnew : AppliesInOrder row q q' r new) (hlen : q'.objects.length = q.objects.length)
    (hrow : ∀ j, q'.onRow row r j = q.onRow row r j)
    (hlive : ∀ j ∈ (q'.queue : Multiset ℕ) + q'.inHand, j ∈ (q.queue : Multiset ℕ) + q.inHand)
    (hopen : ∀ j ∈ (q'.queue : Multiset ℕ) + q'.inHand, q'.committed j = false) :
    InOrder row r (log ++ new) q' := by
  refine ⟨fun i hi => ?_, ?_, fun i hi j hj hon => ?_, fun j hon => ?_⟩
  · rw [hlen]
    rcases List.mem_append.mp hi with hi | hi
    · exact h.valid i hi
    · have hon := hnew.onRow i hi
      rw [AsyncWriteQueue.onRow, Option.any_eq_true] at hon
      obtain ⟨t, ht, -⟩ := hon
      exact (List.getElem?_eq_some_iff.mp ht).1
  · rw [List.pairwise_append]
    refine ⟨h.sorted, hnew.sorted, fun i hi j hj => ?_⟩
    exact h.before i hi j (Multiset.mem_add.mpr (.inr (hnew.inHand j hj))) (hnew.onRow j hj)
  · rw [hrow] at hon
    rcases List.mem_append.mp hi with hi | hi
    · exact h.before i hi j (hlive j hj) hon
    · refine hnew.first i hi j (hlive j hj) hon fun hmem => ?_
      have hcommitted := (hnew.committed j hon).mpr (.inr hmem)
      rw [hopen j hj] at hcommitted
      cases hcommitted
  · rw [hrow] at hon
    rw [hnew.committed j hon, h.committed j hon, List.mem_append]

theorem committed_of_live (h : q.Conserved) (hj : j ∈ (q.queue : Multiset ℕ) + q.inHand) :
    q.committed j = false := by
  obtain ⟨t, ht, hopen⟩ := h.live j hj
  rw [committed, ht, Option.any_some, hopen.commits]
  rfl

theorem InOrder.submit {log : List ℕ} (h : InOrder row r log q) {sub : Submission V}
    (hkey : sub.key = none) : InOrder row r log (q.submit sub).1 := by
  rcases submit_objects q hkey with hsame | ⟨t, hobjects, hcommits, hworkers, hqueue⟩
  · rw [hsame]
    exact h
  · have hold : ∀ j, j < q.objects.length → (q.submit sub).1.objects[j]? = q.objects[j]? := by
      intro j hj
      rw [hobjects, List.getElem?_append_left hj]
    have hnew : (q.submit sub).1.committed q.objects.length = false := by
      rw [AsyncWriteQueue.committed, hobjects, List.getElem?_concat_length, Option.any_some, hcommits]
      rfl
    have hlt : ∀ j, (q.submit sub).1.onRow row r j = true → j < q.objects.length ∨ j = q.objects.length := by
      intro j hon
      rw [onRow, Option.any_eq_true] at hon
      obtain ⟨t', ht', -⟩ := hon
      have hlen := (List.getElem?_eq_some_iff.mp ht').1
      rw [hobjects, List.length_append, List.length_singleton] at hlen
      omega
    refine ⟨fun i hi => ?_, h.sorted, fun i hi j hj hon => ?_, fun j hon => ?_⟩
    · rw [hobjects, List.length_append]
      exact Nat.lt_add_right _ (h.valid i hi)
    · rcases hlt j hon with hj' | rfl
      · refine h.before i hi j ?_ ?_
        · rw [inHand, hworkers] at hj
          rcases Multiset.mem_add.mp hj with hj | hj
          · rcases hqueue j hj with hj | rfl
            · exact Multiset.mem_add.mpr (.inl hj)
            · exact absurd hj' (lt_irrefl _)
          · exact Multiset.mem_add.mpr (.inr hj)
        · rw [onRow, hold j hj'] at hon
          exact hon
      · exact h.valid i hi
    · rcases hlt j hon with hj | rfl
      · rw [onRow, hold j hj] at hon
        rw [AsyncWriteQueue.committed, hold j hj]
        exact h.committed j hon
      · rw [hnew]
        constructor
        · intro hfalse
          cases hfalse
        · intro hmem
          exact absurd (h.valid _ hmem) (lt_irrefl _)

theorem keepsReports_of_keepsRows {a : Action V} (h : q.keepsRows row models a = true) :
    q.keepsReports models a = true := by
  cases a with
  | runGroup k faults commitFault =>
      rw [keepsRows] at h
      rw [keepsReports]
      cases hw : q.workers[k]? with
      | none => rfl
      | some w =>
          rw [hw] at h
          cases w with
          | executing groups =>
              cases groups with
              | nil => rfl
              | cons g rest =>
                  have hgroup : q.groupInOrder row models g.1 g.2 faults commitFault = true := h
                  rw [groupInOrder, Bool.and_eq_true] at hgroup
                  exact hgroup.1
          | _ => rfl
  | _ => rfl

theorem InOrder.step {log : List ℕ} {a : Action V} (h : InOrder row r log q) (hc : q.Conserved)
    (hplain : a.Plain) (hk : q.keepsRows row models a = true) (hs : q.step models a = some q') :
    InOrder row r (log ++ (q.applied models a).filter (q.onRow row r)) q' := by
  have hc' := hc.step hplain (keepsReports_of_keepsRows hk) hs
  have hopen : ∀ j ∈ (q'.queue : Multiset ℕ) + q'.inHand, q'.committed j = false :=
    fun j hj => committed_of_live hc' hj
  have hmoved : a.Moves → q.applied models a = [] →
      InOrder row r (log ++ (q.applied models a).filter (q.onRow row r)) q' := by
    intro hmoves hnone
    obtain ⟨hobjects, hlive⟩ := hc.moved hmoves hs
    rw [hnone, List.filter_nil]
    refine h.extend (.nothing fun j => ?_) ?_ (fun j => ?_) (fun j hj => hlive ▸ hj) hopen
    · rw [AsyncWriteQueue.committed, hobjects, AsyncWriteQueue.committed]
    · rw [hobjects]
    · rw [AsyncWriteQueue.onRow, hobjects, AsyncWriteQueue.onRow]
  cases stepped hs with
  | start => exact hmoved trivial rfl
  | stop => exact hmoved trivial rfl
  | clear => exact hplain.elim
  | submit sub =>
      have hnone : q.applied models (.submit sub) = [] := rfl
      rw [hnone, List.filter_nil, List.append_nil]
      exact h.submit hplain
  | enter => exact hmoved trivial rfl
  | pop => exact hmoved trivial rfl
  | emptyBatch => exact hmoved trivial rfl
  | startBatch => exact hmoved trivial rfl
  | @runGroup k model is rest faults commitFault hw =>
      have hhands : q.inHand = is +
          ((q.executeModelBatch models model is faults commitFault).afterGroup k rest).inHand :=
        inHand_afterGroup hw
      obtain ⟨hobjects, hqueue, -⟩ := afterGroup_spec
        (q.executeModelBatch models model is faults commitFault) k rest
      have hbatch : Evolves is q (q.executeModelBatch models model is faults commitFault) :=
        .executeModelBatch models model faults commitFault
      have hmem : ∀ i ∈ is, i ∈ q.inHand := by
        intro i hi
        rw [hhands]
        exact Multiset.mem_add.mpr (.inl hi)
      have hnodup : is.Nodup := by
        have hall := hc.nodup
        rw [add_zero, add_zero, hhands] at hall
        exact Multiset.coe_nodup.mp ((Multiset.nodup_add.mp
          (Multiset.nodup_add.mp hall).2.1).1)
      have hvalid : ∀ i ∈ is, i < q.objects.length := by
        intro i hi
        obtain ⟨t, ht, -⟩ := hc.live i (Multiset.mem_add.mpr (.inr (hmem i hi)))
        exact (List.getElem?_eq_some_iff.mp ht).1
      simp only [keepsRows, hw] at hk
      have hnew := appliesInOrder_group hnodup hvalid hw hk r
      simp only [applied, hw]
      refine h.extend ⟨hnew.onRow, hnew.inHand, hnew.sorted, hnew.first, fun j hon => ?_⟩ ?_
        (fun j => ?_) (fun j hj => ?_) hopen
      · rw [AsyncWriteQueue.committed, hobjects]
        exact hnew.committed j hon
      · rw [hobjects, hbatch.length]
      · rw [AsyncWriteQueue.onRow, hobjects]
        exact onRow_evolves hbatch r j
      · rw [hqueue] at hj
        rcases Multiset.mem_add.mp hj with hj | hj
        · rcases hbatch.queue j hj with hj | hj
          · exact Multiset.mem_add.mpr (.inl hj)
          · exact Multiset.mem_add.mpr (.inr (hmem j hj))
        · refine Multiset.mem_add.mpr (.inr ?_)
          rw [hhands]
          exact Multiset.mem_add.mpr (.inr hj)

/-- In a run that meets the condition the log of every row is in order. -/
theorem inOrder_run {maxQueueSize batchSize maxWorkers : ℕ} {db : String → Table V}
    {as : List (Action V)} (hplain : ∀ a ∈ as, a.Plain)
    (hkeep : PartialRun.Along (step models) (fun q a => q.keepsRows row models a = true)
      (initial maxQueueSize batchSize maxWorkers db) as)
    (hrun : PartialRun.exec (step models) (initial maxQueueSize batchSize maxWorkers db) as =
      some q) (r : κ) :
    q.Conserved ∧ InOrder row r ((appliedRun models
      (initial maxQueueSize batchSize maxWorkers db) as).filter (q.onRow row r)) q := by
  let q₀ := initial maxQueueSize batchSize maxWorkers db
  have hinv : PartialRun.exec (step models) q₀ as = some q ∧ Logged q (appliedRun models q₀ as) ∧
      InOrder row r ((appliedRun models q₀ as).filter (q.onRow row r)) q := by
    refine PartialRun.invariant_of_history
      (I := fun pre q => PartialRun.exec (step models) q₀ pre = some q ∧
        Logged q (appliedRun models q₀ pre) ∧
          InOrder row r ((appliedRun models q₀ pre).filter (q.onRow row r)) q)
      (P := fun _ q a => q.keepsRows row models a = true ∧ a.Plain) ?_ ?_ ?_ hrun
    · rintro pre u a v ⟨hpre, hlog, h⟩ ⟨hk, hp⟩ hs
      obtain ⟨hlog', hsame⟩ := hlog.step hp (keepsReports_of_keepsRows hk) hs
      rw [appliedRun_concat hpre hs]
      refine ⟨?_, hlog', ?_⟩
      · exact PartialRun.exec_append_eq_some.mpr
          ⟨u, hpre, PartialRun.exec_cons_eq_some.mpr ⟨v, hs, rfl⟩⟩
      · have hfilter : (appliedRun models q₀ pre ++ u.applied models a).filter (v.onRow row r) =
            (appliedRun models q₀ pre).filter (u.onRow row r) ++
              (u.applied models a).filter (u.onRow row r) := by
          rw [← List.filter_append]
          refine List.filter_congr fun i hi => ?_
          obtain ⟨t, t', ht, ht', haccepted⟩ := hsame i hi
          rw [AsyncWriteQueue.onRow, AsyncWriteQueue.onRow, ht, ht', Option.any_some,
            Option.any_some, haccepted]
        rw [hfilter]
        exact h.step hlog.conserved hp hk hs
    · refine ⟨rfl, logged_initial, fun i hi => ?_, .nil, fun i hi => ?_, fun j hon => ?_⟩
      · exact absurd hi List.not_mem_nil
      · exact absurd hi List.not_mem_nil
      · cases hon
    · intro pre a post he u hu
      exact ⟨PartialRun.along_iff_split.mp hkeep pre a post he u hu, hplain a (by simp [he])⟩
  exact ⟨hinv.2.1.conserved, hinv.2.2⟩

theorem le_getLast {l : List ℕ} (h : l.Pairwise (· < ·)) (hi : i ∈ l) :
    ∃ j, l.getLast? = some j ∧ i ≤ j := by
  have hne : l ≠ [] := List.ne_nil_of_mem hi
  refine ⟨l.getLast hne, List.getLast?_eq_getLast_of_ne_nil hne, ?_⟩
  have hsplit := List.dropLast_append_getLast hne
  rw [← hsplit] at hi h
  rcases List.mem_append.mp hi with hi | hi
  · exact ((List.pairwise_append.mp h).2.2 i hi _ (List.mem_singleton_self _)).le
  · exact (List.mem_singleton.mp hi).le

/-- A task is reported as completed exactly if it is committed. -/
theorem completed_iff (h : q.Conserved) {t : WriteTask V} (ht : q.objects[i]? = some t)
    (he : t.enqueued = true) : 0 < t.completed ↔ q.committed i = true := by
  rw [committed, ht, Option.any_some]
  by_cases hlive : i ∈ (q.queue : Multiset ℕ) + q.inHand
  · obtain ⟨t', ht', hopen⟩ := h.live i hlive
    obtain rfl := Option.some.inj (ht.symm.trans ht')
    simp [hopen.completed, hopen.commits]
  · rcases h.settled i t ht he (by simpa using hlive) with hout | hout
    · simp [hout.1, hout.2.2.2]
    · simp [hout.1, hout.2.2.2]

/-- The writes to the row `r` were applied in the order of submission, and they are the
reported ones: the last of these was applied last. -/
structure WrittenInOrder (row : Write V → Option κ) (q : AsyncWriteQueue V) (log : List ℕ) (r : κ) :
    Prop where
  sorted : (log.filter (q.onRow row r)).Pairwise (· < ·)
  reported : ∀ i t, q.objects[i]? = some t → t.enqueued = true → q.onRow row r i = true →
    (0 < t.completed ↔ i ∈ log)
  last : ∀ i t, q.objects[i]? = some t → t.enqueued = true → q.onRow row r i = true →
    0 < t.completed → ∃ j, (log.filter (q.onRow row r)).getLast? = some j ∧ i ≤ j

/-- In every run that meets the condition, the writes to a row are applied in the order
of submission, the reported ones, and the tables are what the applied writes make of them. -/
theorem rows_in_order {maxQueueSize batchSize maxWorkers : ℕ} {db : String → Table V}
    {as : List (Action V)} (hplain : ∀ a ∈ as, a.Plain)
    (hkeep : PartialRun.Along (step models) (fun q a => q.keepsRows row models a = true)
      (initial maxQueueSize batchSize maxWorkers db) as)
    (hrun : PartialRun.exec (step models) (initial maxQueueSize batchSize maxWorkers db) as =
      some q) :
    (∀ r, WrittenInOrder row q
      (appliedRun models (initial maxQueueSize batchSize maxWorkers db) as) r) ∧
      ∀ m, (∀ t ∈ q.objects, t.accepted.modelClass = m → t.accepted.Ordinary models) →
        replay models m (q.acceptedWrites (appliedRun models
          (initial maxQueueSize batchSize maxWorkers db) as)) (db m) = some (q.db m) := by
  refine ⟨fun r => ?_, fun m hordinary => ?_⟩
  · obtain ⟨hc, h⟩ := inOrder_run hplain hkeep hrun r
    have hmem : ∀ i t, q.objects[i]? = some t → t.enqueued = true → q.onRow row r i = true →
        (0 < t.completed ↔ i ∈ (appliedRun models (initial maxQueueSize batchSize maxWorkers db)
          as).filter (q.onRow row r)) := by
      intro i t ht he hon
      exact (completed_iff hc ht he).trans (h.committed i hon)
    refine ⟨h.sorted, fun i t ht he hon => ?_, fun i t ht he hon hdone => ?_⟩
    · rw [hmem i t ht he hon, List.mem_filter, and_iff_left hon]
    · exact le_getLast h.sorted ((hmem i t ht he hon).mp hdone)
  · exact replay_run hplain (hkeep.mono fun _ _ h => keepsReports_of_keepsRows h) hrun hordinary

end Rows

/-- An UPDATE of the row 7. -/
def updateName (name : ℕ) : Submission ℕ where
  write := ⟨.update, "Item", kwargs [("id", 7), ("name", name)]⟩

/-- Two updates of a row, both in the batch of one worker. -/
def inOneBatch : List (Action ℕ) :=
  [.start, .submit (updateName 2), .submit (updateName 3), .enter 0, .pop 0, .pop 0, .startBatch 0,
    .runGroup 0 [] none]

/-- Two updates of a row; the worker with the later one is faster. -/
def overtaking : List (Action ℕ) :=
  [.start, .submit (updateName 2), .submit (updateName 3), .enter 0, .pop 0, .startBatch 0,
    .enter 1, .pop 1, .startBatch 1, .runGroup 1 [] none, .runGroup 0 [] none]

theorem batch_in_order :
    ∃ q, PartialRun.exec (step plainModels) (initial 10 10 1 oneItem) inOneBatch = some q ∧
      WrittenInOrder (Write.rowOfId plainModels) q
        (appliedRun plainModels (initial 10 10 1 oneItem) inOneBatch) ("Item", 7) ∧
      appliedRun plainModels (initial 10 10 1 oneItem) inOneBatch = [0, 1] ∧
      q.cell "Item" 7 "name" = some 3 := by
  have hrun : (PartialRun.exec (step plainModels) (initial 10 10 1 oneItem) inOneBatch).map
      (fun q => q.cell "Item" 7 "name") = some (some 3) := by decide +kernel
  obtain ⟨q, hq, hcell⟩ := Option.map_eq_some_iff.mp hrun
  have hplain : ∀ a ∈ inOneBatch, a.Plain := by
    simp [inOneBatch, updateName, Action.Plain, Submission.key]
  have hkeep : PartialRun.Along (step plainModels)
      (fun q a => q.keepsRows (Write.rowOfId plainModels) plainModels a = true)
      (initial 10 10 1 oneItem) inOneBatch := by decide +kernel
  exact ⟨q, hq, (rows_in_order hplain hkeep hq).1 ("Item", 7), by decide +kernel, hcell⟩

/-- Both updates are reported, and the row has the value of the earlier one. -/
theorem later_update_overwritten :
    ∃ q, PartialRun.exec (step plainModels) (initial 10 1 2 oneItem) overtaking = some q ∧
      q.Drained ∧ (∀ t ∈ q.objects, t.completed = 1) ∧ q.cell "Item" 7 "name" = some 2 ∧
      ¬ WrittenInOrder (Write.rowOfId plainModels) q
        (appliedRun plainModels (initial 10 1 2 oneItem) overtaking) ("Item", 7) := by
  have hrun : (PartialRun.exec (step plainModels) (initial 10 1 2 oneItem) overtaking).map
      (fun q => (decide q.Drained, q.objects.map WriteTask.completed, q.cell "Item" 7 "name",
        [1, 0].filter (q.onRow (Write.rowOfId plainModels) ("Item", 7)))) =
      some (true, [1, 1], some 2, [1, 0]) := by decide +kernel
  obtain ⟨q, hq, hout⟩ := Option.map_eq_some_iff.mp hrun
  obtain ⟨hdrained, hout⟩ := Prod.mk.inj hout
  obtain ⟨hcompleted, hout⟩ := Prod.mk.inj hout
  obtain ⟨hcell, hrow⟩ := Prod.mk.inj hout
  refine ⟨q, hq, of_decide_eq_true hdrained, fun t ht => ?_, hcell, fun h => ?_⟩
  · have hmem : t.completed ∈ q.objects.map WriteTask.completed := List.mem_map_of_mem ht
    rw [hcompleted] at hmem
    simpa using hmem
  · have hlog : appliedRun plainModels (initial 10 1 2 oneItem) overtaking = [1, 0] := by
      decide +kernel
    have hsorted := h.sorted
    rw [hlog, hrow] at hsorted
    exact absurd hsorted (by decide)

end AsyncWriteQueue

end SmartMedia.WriteQueue
