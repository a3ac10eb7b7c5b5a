import Mathlib.Algebra.GroupWithZero.Nat
import SmartMedia.WriteQueue.Retry

/-!
# How many outcomes does a task get?

`_execute_model_batch` counts and reports a success when the operation returns, and
commits the session only after the last task of the group. Whatever takes a reported
write away again (the commit fails, the fallback of an UPSERT rolls the session back)
makes the report wrong, and a failed commit retries every task of the group a second
time. As long as nothing of this happens, each accepted task is in exactly one place
until it gets its one outcome.
-/
set_option linter.unusedSectionVars false

namespace SmartMedia.WriteQueue

universe u

variable {V : Type u} [DecidableEq V]

namespace WriteTask

/-- The calls a task's callback has got after one report. -/
def calls (t : WriteTask V) (result : Option String) : List (Option String) :=
  if t.callback then [result] else []

/-- Accepted, and nothing is decided. -/
structure Open (t : WriteTask V) : Prop where
  enqueued : t.enqueued = true
  write : t.write = t.accepted
  completed : t.completed = 0
  failed : t.failed = 0
  told : t.told = []
  commits : t.commits = []

/-- Reported as completed; the commit is still to come. -/
structure Reported (t : WriteTask V) : Prop where
  executed : t.executed = t.accepted
  completed : t.completed = 1
  failed : t.failed = 0
  told : t.told = t.calls none
  commits : t.commits = []

def Succeeded (t : WriteTask V) : Prop :=
  t.completed = 1 ∧ t.failed = 0 ∧ t.told = t.calls none ∧ t.commits = [t.accepted]

def Failed (t : WriteTask V) : Prop :=
  t.completed = 0 ∧ t.failed = 1 ∧ (∃ e, t.told = t.calls (some e)) ∧ t.commits = []

theorem Open.attempt {t : WriteTask V} (h : t.Open) : (t.attempt t.write).Open :=
  ⟨h.enqueued, h.write, h.completed, h.failed, h.told, h.commits⟩

theorem Open.countRetry {t : WriteTask V} (h : t.Open) : t.countRetry.Open :=
  ⟨h.enqueued, h.write, h.completed, h.failed, h.told, h.commits⟩

theorem Open.raisePriority {t : WriteTask V} (h : t.Open) : t.raisePriority.Open :=
  ⟨h.enqueued, h.write, h.completed, h.failed, h.told, h.commits⟩

theorem Open.succeed {t : WriteTask V} (h : t.Open) (w : Write V) :
    ((t.attempt w).succeed).Reported := by
  refine ⟨h.write, ?_, h.failed, ?_, h.commits⟩
  · have hcompleted := h.completed
    simp only [WriteTask.succeed, tell, WriteTask.attempt]
    omega
  · simp [WriteTask.succeed, tell, WriteTask.attempt, h.told, calls]

theorem Open.fail {t : WriteTask V} (h : t.Open) (e : String) : (t.fail e).Failed := by
  refine ⟨h.completed, ?_, ⟨e, ?_⟩, h.commits⟩
  · have hfailed := h.failed
    simp only [WriteTask.fail, tell]
    omega
  · simp [WriteTask.fail, tell, h.told, calls]

theorem Reported.commit {t : WriteTask V} (h : t.Reported) : t.commit.Succeeded := by
  refine ⟨h.completed, h.failed, h.told, ?_⟩
  simp [WriteTask.commit, h.commits, h.executed]

end WriteTask

/-- The tasks by where they are: in the heap, in a worker's hands, held by the session of
a group, in flight between two of these; all other accepted tasks have their outcome. -/
structure Accounted (q : AsyncWriteQueue V) (hands held flight : Multiset ℕ) : Prop where
  nodup : ((q.queue : Multiset ℕ) + hands + held + flight).Nodup
  live : ∀ i ∈ (q.queue : Multiset ℕ) + hands, ∃ t, q.objects[i]? = some t ∧ t.Open
  reported : ∀ i ∈ held, ∃ t, q.objects[i]? = some t ∧ t.Reported
  settled : ∀ i t, q.objects[i]? = some t → t.enqueued = true →
    i ∉ (q.queue : Multiset ℕ) + hands + held + flight → t.Succeeded ∨ t.Failed

namespace Accounted
variable {q : AsyncWriteQueue V} {hands held flight : Multiset ℕ} {i : ℕ}

/-- Tasks may change places between the heap and the hands. -/
theorem congr {q' : AsyncWriteQueue V} {hands' : Multiset ℕ} (h : Accounted q hands held flight)
    (ho : q'.objects = q.objects)
    (hq : (q'.queue : Multiset ℕ) + hands' = q.queue + hands) : Accounted q' hands' held flight := by
  refine ⟨hq ▸ h.nodup, ?_, ho ▸ h.reported, ?_⟩
  · rw [ho, hq]
    exact h.live
  · rw [ho, hq]
    exact h.settled

/-- A worker takes up a task it has in hand. -/
theorem take (h : Accounted q (i ::ₘ hands) held flight) :
    (∃ t, q.objects[i]? = some t ∧ t.Open) ∧ Accounted q hands held (i ::ₘ flight) := by
  have hperm : (q.queue : Multiset ℕ) + (i ::ₘ hands) + held + flight =
      q.queue + hands + held + (i ::ₘ flight) := by
    simp only [Multiset.add_cons, Multiset.cons_add]
  refine ⟨h.live i (by simp), hperm ▸ h.nodup, fun j hj => h.live j ?_, h.reported, hperm ▸ h.settled⟩
  rw [Multiset.add_cons]
  exact Multiset.mem_cons_of_mem hj

/-- The session gives a task back. -/
theorem release (h : Accounted q hands (i ::ₘ held) flight) :
    (∃ t, q.objects[i]? = some t ∧ t.Reported) ∧ Accounted q hands held (i ::ₘ flight) := by
  have hperm : (q.queue : Multiset ℕ) + hands + (i ::ₘ held) + flight =
      q.queue + hands + held + (i ::ₘ flight) := by
    simp only [Multiset.add_cons, Multiset.cons_add]
  exact ⟨h.reported i (Multiset.mem_cons_self i held), hperm ▸ h.nodup, h.live,
    fun j hj => h.reported j (Multiset.mem_cons_of_mem hj), hperm ▸ h.settled⟩

/-- Nothing is known of a task in flight, so its object may change. -/
theorem modify (h : Accounted q hands held (i ::ₘ flight)) (f : WriteTask V → WriteTask V) :
    Accounted (q.modify i f) hands held (i ::ₘ flight) := by
  have hother : ∀ j ≠ i, (q.modify i f).objects[j]? = q.objects[j]? := by
    intro j hj
    rw [AsyncWriteQueue.modify, List.getElem?_modify]
    simp [hj.symm]
  have hnot : i ∉ (q.queue : Multiset ℕ) + hands + held := by
    have hnodup := h.nodup
    rw [Multiset.add_cons, Multiset.nodup_cons] at hnodup
    exact fun hi => hnodup.1 (Multiset.mem_add.mpr (.inl hi))
  refine ⟨h.nodup, fun j hj => ?_, fun j hj => ?_, fun j t ht he hj => ?_⟩
  · rw [hother j]
    · exact h.live j hj
    · rintro rfl
      exact hnot (Multiset.mem_add.mpr (.inl hj))
  · rw [hother j]
    · exact h.reported j hj
    · rintro rfl
      exact hnot (Multiset.mem_add.mpr (.inr hj))
  · rw [hother j] at ht
    · exact h.settled j t ht he hj
    · rintro rfl
      exact hj (by simp)

/-- A task gets its outcome. -/
theorem settle (h : Accounted q hands held (i ::ₘ flight)) {t : WriteTask V}
    (ht : q.objects[i]? = some t) (hs : t.Succeeded ∨ t.Failed) :
    Accounted q hands held flight := by
  have hnodup := h.nodup
  rw [Multiset.add_cons, Multiset.nodup_cons] at hnodup
  refine ⟨hnodup.2, h.live, h.reported, fun j t' ht' he hj => ?_⟩
  by_cases hij : j = i
  · subst hij
    rw [Option.some.inj (ht'.symm.trans ht)]
    exact hs
  · refine h.settled j t' ht' he ?_
    rw [Multiset.add_cons, Multiset.mem_cons]
    exact fun hm => hm.elim hij hj

/-- A reported task is held by the session. -/
theorem report (h : Accounted q hands held (i ::ₘ flight)) {t : WriteTask V}
    (ht : q.objects[i]? = some t) (hr : t.Reported) : Accounted q hands (i ::ₘ held) flight := by
  have hperm : (q.queue : Multiset ℕ) + hands + held + (i ::ₘ flight) =
      q.queue + hands + (i ::ₘ held) + flight := by
    simp only [Multiset.add_cons, Multiset.cons_add]
  refine ⟨hperm ▸ h.nodup, h.live, fun j hj => ?_, hperm ▸ h.settled⟩
  rcases Multiset.mem_cons.mp hj with rfl | hj
  · exact ⟨t, ht, hr⟩
  · exact h.reported j hj

/-- A task goes back into the heap. -/
theorem push (h : Accounted q hands held (i ::ₘ flight)) {t : WriteTask V}
    (ht : q.objects[i]? = some t) (ho : t.Open) : Accounted (q.push i) hands held flight := by
  have hqueue : ((q.push i).queue : Multiset ℕ) = i ::ₘ q.queue :=
    Multiset.coe_eq_coe.mpr (List.perm_orderedInsert _ i q.queue)
  have hperm : (q.queue : Multiset ℕ) + hands + held + (i ::ₘ flight) =
      (q.push i).queue + hands + held + flight := by
    rw [hqueue]
    simp only [Multiset.add_cons, Multiset.cons_add]
  refine ⟨hperm ▸ h.nodup, fun j hj => ?_, h.reported, hperm ▸ h.settled⟩
  rw [hqueue, Multiset.cons_add] at hj
  rcases Multiset.mem_cons.mp hj with rfl | hj
  · exact ⟨t, ht, ho⟩
  · exact h.live j hj

theorem failTask (h : Accounted q hands held (i ::ₘ flight)) {t : WriteTask V}
    (ht : q.objects[i]? = some t) (ho : t.Open) (e : String) :
    Accounted (q.failTask i e) hands held flight := by
  have hfail := (h.modify fun t => t.fail e).settle (AsyncWriteQueue.modify_object ht _) (.inr (ho.fail e))
  exact hfail.congr rfl rfl

/-- A task that raised is in the heap again or has failed. -/
theorem retryTask (h : Accounted q hands held (i ::ₘ flight)) {t : WriteTask V}
    (ht : q.objects[i]? = some t) (ho : t.Open) (e : String) :
    Accounted (q.retryTask i e) hands held flight := by
  have hcount := h.modify WriteTask.countRetry
  have ht' : (q.modify i WriteTask.countRetry).objects[i]? = some t.countRetry :=
    AsyncWriteQueue.modify_object ht _
  unfold AsyncWriteQueue.retryTask
  simp only [ht']
  split_ifs
  · exact hcount.failTask ht' ho.countRetry e
  · exact (hcount.modify WriteTask.raisePriority).push (AsyncWriteQueue.modify_object ht' _)
      ho.countRetry.raisePriority

/-- The commit of a group. -/
theorem markCommitted {is : List ℕ} (h : Accounted q hands is flight) :
    Accounted (q.markCommitted is) hands 0 flight := by
  induction is generalizing q with
  | nil => exact h
  | cons i is ih =>
      rw [← Multiset.cons_coe] at h
      obtain ⟨⟨t, ht, hr⟩, hin⟩ := h.release
      exact ih ((hin.modify WriteTask.commit).settle (AsyncWriteQueue.modify_object ht _) (.inl hr.commit))

/-- The tasks of an unregistered model. -/
theorem failTasks {is : List ℕ} {e : String} (h : Accounted q (is + hands) held flight) :
    Accounted (is.foldl (fun q i => q.failTask i e) q) hands held flight := by
  induction is generalizing q with
  | nil =>
      rw [Multiset.coe_nil, zero_add] at h
      exact h
  | cons i is ih =>
      rw [← Multiset.cons_coe, Multiset.cons_add] at h
      obtain ⟨⟨t, ht, ho⟩, hin⟩ := h.take
      exact ih (hin.failTask ht ho e)

end Accounted

/-- The turn of a write takes nothing back: an UPDATE that names a row does not raise, a
`create_or_update` that commits raises before its commit if at all, and the fallback of
an UPSERT finds no write of another task in the session. -/
def keepsWrites (models : Models V) (w : Write V) (fault : Option Fault) (s : Session V) : Bool :=
  match w.operation with
  | .insert => true
  | .delete => true
  | .update => (models.key w.data "id").isNone || (fault.bind Fault.atStatement).isNone
  | .upsert =>
      match models.createOrUpdate w.modelClass with
      | some hook => !hook.commits || (fault.bind Fault.atStatement).isSome ||
          (fault.bind Fault.atCommit).isNone && (fault.bind Fault.atRefresh).isNone &&
            ((s.afterHook hook w.data).flush models).isSome
      | none => (models.constructorError w.modelClass w.data).isNone || s.held.isEmpty

/-- Such a turn either adds the task to those of the session or raises and leaves the
task's write and the session's tasks as they were. -/
structure Turned (i : ℕ) (w : Write V) (s : Session V) (a : Attempt V) : Prop where
  broken : a.session.broken = none
  outcome : a.error = none ∧ a.session.tasks.Perm (i :: s.tasks) ∨
    (∃ e, a.error = some e) ∧ a.write = w ∧ a.session.tasks = s.tasks

theorem Session.tasks_hold_perm (s : Session V) (i : ℕ) : (s.hold i).tasks.Perm (i :: s.tasks) := by
  have hlast : (s.hold i).tasks = s.tasks ++ [i] := (List.append_assoc _ _ _).symm
  rw [hlast]
  exact List.perm_append_singleton i s.tasks

section
variable {models : Models V} {i : ℕ} {w : Write V} {fault : Option Fault} {s : Session V}

theorem Turned.held {w' : Write V} {s' : Session V} (hb : s'.broken = none)
    (ht : s'.tasks = s.tasks) : Turned i w s ⟨w', s'.hold i, none⟩ :=
  ⟨hb, .inl ⟨rfl, ht ▸ s'.tasks_hold_perm i⟩⟩

theorem Turned.raised {s' : Session V} (e : String) (hb : s'.broken = none)
    (ht : s'.tasks = s.tasks) : Turned i w s ⟨w, s', some e⟩ :=
  ⟨hb, .inr ⟨⟨e, rfl⟩, rfl, ht⟩⟩

theorem Turned.executeFallback (hheld : s.held = []) :
    Turned i w s (executeFallback models i w fault s) := by
  have htasks : s.rollback.tasks = s.tasks := by simp [Session.tasks, Session.rollback, hheld]
  simp only [WriteQueue.executeFallback]
  split
  · exact .held rfl htasks
  · split
    · exact .raised _ rfl htasks
    · split
      · exact .held rfl htasks
      · refine .held ?_ ?_
        · unfold Session.assign
          split <;> rfl
        · simpa [Session.tasks] using htasks

theorem Turned.executeHook {hook : CreateOrUpdate V} (hb : s.broken = none)
    (hk : hook.commits = true → fault.bind Fault.atStatement = none →
      fault.bind Fault.atCommit = none ∧ fault.bind Fault.atRefresh = none ∧
        ∃ table, (s.afterHook hook w.data).flush models = some table) :
    Turned i w s (executeHook models i w fault s hook) := by
  have hbroken : (s.afterHook hook w.data).broken = none := hb
  simp only [WriteQueue.executeHook, hb, Option.none_or]
  cases hfault : fault.bind Fault.atStatement with
  | some e => exact .raised e hb rfl
  | none =>
      dsimp only
      split_ifs with hcommits
      · obtain ⟨hcommit, hrefresh, table, htable⟩ := hk hcommits hfault
        have hok : ((s.afterHook hook w.data).hold i).commit models (fault.bind Fault.atCommit) =
            .ok table := Session.commit_eq_ok.mpr ⟨hbroken, hcommit, htable⟩
        rw [hok, hrefresh]
        refine ⟨rfl, .inl ⟨rfl, ?_⟩⟩
        have htasks : (((s.afterHook hook w.data).hold i).restart table).tasks =
            ((s.afterHook hook w.data).hold i).tasks := List.append_nil _
        rw [htasks]
        exact (s.afterHook hook w.data).tasks_hold_perm i
      · exact .held hbroken rfl

theorem turned (hk : keepsWrites models w fault s) (hb : s.broken = none) :
    Turned i w s (executeSingleTask models i w fault s) := by
  unfold keepsWrites at hk
  unfold executeSingleTask
  cases hop : w.operation with
  | insert =>
      simp only [executeInsert]
      split
      · exact .raised _ hb rfl
      · exact .held hb rfl
  | update =>
      simp only [hop] at hk
      simp only [executeUpdate]
      cases hkey : models.key w.data "id" with
      | none => exact .held hb rfl
      | some id =>
          have hfault : fault.bind Fault.atStatement = none := by simpa [hkey] using hk
          rw [hb, hfault]
          refine .held ?_ (by simp [Session.tasks])
          unfold Session.assign
          split <;> exact hb
  | delete =>
      simp only [executeDelete]
      split
      · exact .held hb rfl
      · split
        · exact .raised _ hb rfl
        · exact .held hb rfl
  | upsert =>
      simp only [hop] at hk
      dsimp only
      cases hhook : models.createOrUpdate w.modelClass with
      | some hook =>
          rw [hhook] at hk
          refine .executeHook hb fun hcommits hfault => ?_
          simpa [hcommits, hfault, Option.isSome_iff_exists, and_assoc] using hk
      | none =>
          rw [hhook] at hk
          dsimp only at hk ⊢
          cases herr : models.constructorError w.modelClass w.data with
          | none => exact .held hb rfl
          | some e => exact .executeFallback (by simpa [herr] using hk)

end

/-- Every turn of a group's loop takes nothing back. -/
def everyTurnKeeps (models : Models V) :
    AsyncWriteQueue V → Session V → List ℕ → List (Option Fault) → Bool
  | _, _, [], _ => true
  | q, s, i :: is, faults =>
      let out := AsyncWriteQueue.runTask models q s i (faults.headD none)
      (q.objects[i]?).all (fun t => keepsWrites models t.write (faults.headD none) s) &&
        everyTurnKeeps models out.1 out.2 is faults.tail

namespace Accounted
variable {models : Models V} {q : AsyncWriteQueue V} {hands : Multiset ℕ} {s : Session V} {i : ℕ}

/-- One turn: the task joins the session's tasks, or the heap, or has failed. -/
theorem runTask {fault : Option Fault} (h : Accounted q (i ::ₘ hands) s.tasks 0)
    (hk : (q.objects[i]?).all fun t => keepsWrites models t.write fault s)
    (hb : s.broken = none) :
    (AsyncWriteQueue.runTask models q s i fault).2.broken = none ∧
      Accounted (AsyncWriteQueue.runTask models q s i fault).1 hands
        (AsyncWriteQueue.runTask models q s i fault).2.tasks 0 := by
  obtain ⟨⟨t, ht, ho⟩, hin⟩ := h.take
  rw [ht, Option.all_some] at hk
  have hturn := turned (i := i) hk hb
  unfold AsyncWriteQueue.runTask
  simp only [ht]
  generalize executeSingleTask models i t.write fault s = a at hturn ⊢
  have hattempt := hin.modify fun t => t.attempt a.write
  have ht' := AsyncWriteQueue.modify_object ht fun t => t.attempt a.write
  rcases hturn.outcome with ⟨hnone, hperm⟩ | ⟨⟨e, herr⟩, hwrite, htasks⟩
  · simp only [hnone]
    have hreport := (hattempt.modify WriteTask.succeed).report (AsyncWriteQueue.modify_object ht' _)
      (ho.succeed a.write)
    rw [Multiset.cons_coe, ← Multiset.coe_eq_coe.mpr hperm] at hreport
    exact ⟨hturn.broken, hreport.congr rfl rfl⟩
  · simp only [herr, htasks]
    have hopen : (t.attempt a.write).Open := by
      rw [hwrite]
      exact ho.attempt
    exact ⟨hturn.broken, hattempt.retryTask ht' hopen e⟩

theorem runTasks {is : List ℕ} {faults : List (Option Fault)}
    (h : Accounted q (is + hands) s.tasks 0) (hk : everyTurnKeeps models q s is faults)
    (hb : s.broken = none) :
    Accounted (AsyncWriteQueue.runTasks models q s is faults).1 hands
      (AsyncWriteQueue.runTasks models q s is faults).2.tasks 0 := by
  induction is generalizing q s faults with
  | nil =>
      rw [Multiset.coe_nil, zero_add] at h
      exact h
  | cons i is ih =>
      rw [← Multiset.cons_coe, Multiset.cons_add] at h
      rw [everyTurnKeeps, Bool.and_eq_true] at hk
      obtain ⟨hb', hturn⟩ := h.runTask hk.1 hb
      exact ih hturn hk.2 hb'

end Accounted

/-- A group takes nothing back: none of its turns does, and its commit succeeds. -/
def groupKeeps (models : Models V) (q : AsyncWriteQueue V) (model : String) (is : List ℕ)
    (faults : List (Option Fault)) (commitFault : Option String) : Bool :=
  let s := Session.begin (q.db model)
  !models.registered model || everyTurnKeeps models q s is faults &&
    ((AsyncWriteQueue.runTasks models q s is faults).2.commit models commitFault).isOk

theorem Accounted.executeModelBatch {models : Models V} {q : AsyncWriteQueue V}
    {hands : Multiset ℕ} {model : String} {is : List ℕ} {faults : List (Option Fault)}
    {commitFault : Option String} (h : Accounted q (is + hands) 0 0)
    (hk : groupKeeps models q model is faults commitFault) :
    Accounted (q.executeModelBatch models model is faults commitFault) hands 0 0 := by
  unfold AsyncWriteQueue.executeModelBatch
  split_ifs with hreg
  · simp only [groupKeeps, hreg, Bool.not_true, Bool.false_or, Bool.and_eq_true] at hk
    obtain ⟨hturns, hok⟩ := hk
    obtain ⟨table, hcommit⟩ : ∃ table, (AsyncWriteQueue.runTasks models q
        (Session.begin (q.db model)) is faults).2.commit models commitFault = .ok table := by
      cases hcommit : (AsyncWriteQueue.runTasks models q (Session.begin (q.db model)) is
          faults).2.commit models commitFault with
      | error e => simp [hcommit, Except.isOk, Except.toBool] at hok
      | ok table => exact ⟨table, rfl⟩
    have hrun := Accounted.runTasks (s := Session.begin (q.db model)) h hturns rfl
    simp only [AsyncWriteQueue.closeSession, hcommit]
    exact hrun.markCommitted.congr rfl rfl
  · exact h.failTasks

namespace AsyncWriteQueue
variable {models : Models V} {q q' : AsyncWriteQueue V} {a : Action V}

/-- The tasks in the hands of all workers. -/
def inHand (q : AsyncWriteQueue V) : Multiset ℕ := (q.workers.flatMap Worker.tasks : List ℕ)

theorem flatMap_set {l : List Worker} {k : ℕ} {w₀ : Worker} (hk : l[k]? = some w₀) (w : Worker) :
    (((l.set k w).flatMap Worker.tasks : List ℕ) : Multiset ℕ) + w₀.tasks =
      (l.flatMap Worker.tasks : List ℕ) + (w.tasks : Multiset ℕ) := by
  induction l generalizing k with
  | nil => simp at hk
  | cons w₁ l ih =>
      cases k with
      | zero =>
          obtain rfl : w₁ = w₀ := by simpa using hk
          simp only [List.set_cons_zero, List.flatMap_cons, ← Multiset.coe_add]
          ac_rfl
      | succ k =>
          have hrest := ih (k := k) (by simpa using hk)
          simp only [List.set_cons_succ, List.flatMap_cons, ← Multiset.coe_add]
          rw [add_assoc, hrest, add_assoc]

/-- What a worker gives and takes, the hands lose and get. -/
theorem inHand_setWorker {k : ℕ} {w₀ : Worker} (hk : q.workers[k]? = some w₀) (w : Worker) :
    (q.setWorker k w).inHand + w₀.tasks = q.inHand + w.tasks := flatMap_set hk w

/-- Nothing is under way inside a group. -/
def Conserved (q : AsyncWriteQueue V) : Prop := Accounted q q.inHand 0 0

end AsyncWriteQueue

/-- No merge keys, and the queue is not cleared. -/
def Action.Plain : Action V → Prop
  | .submit sub => sub.key = none
  | .clear => False
  | _ => True

/-- The steps that touch no task. -/
def Action.Moves : Action V → Prop
  | .submit _ => False
  | .clear => False
  | .runGroup _ _ _ => False
  | _ => True

namespace AsyncWriteQueue
variable {models : Models V} {q q' : AsyncWriteQueue V} {a : Action V}

/-- The group a step executes takes nothing back. -/
def keepsReports (models : Models V) (q : AsyncWriteQueue V) : Action V → Bool
  | .runGroup k faults commitFault =>
      match q.workers[k]? with
      | some (.executing ((model, is) :: _)) => groupKeeps models q model is faults commitFault
      | _ => true
  | _ => true

theorem Conserved.submit (h : q.Conserved) {sub : Submission V} (hkey : sub.key = none) :
    (q.submit sub).1.Conserved := by
  have hkeep : ∀ {i : ℕ} {t : WriteTask V}, q.objects[i]? = some t →
      (q.cached sub).objects[i]? = some t := by
    intro i t ht
    exact (List.getElem?_append_left (List.getElem?_eq_some_iff.mp ht).1).trans ht
  have hcreated : Accounted (q.cached sub) q.inHand 0 0 := by
    refine ⟨h.nodup, fun i hi => ?_, fun i hi => ?_, fun i t ht he hi => ?_⟩
    · obtain ⟨t, ht, ho⟩ := h.live i hi
      exact ⟨t, hkeep ht, ho⟩
    · exact absurd hi (Multiset.notMem_zero i)
    · rcases getElem?_concat ht with ht | ⟨-, rfl⟩
      · exact h.settled i t ht he hi
      · cases he
  have hout := submitted q sub
  generalize q.submit sub = out at hout ⊢
  cases hout with
  | notRunning => exact h
  | merged _ hsome _ =>
      rw [hkey] at hsome
      cases hsome
  | full => exact hcreated
  | accepted =>
      -- the new object is nowhere else
      have hnew : q.objects.length ∉ (q.queue : Multiset ℕ) + q.inHand := by
        intro hi
        obtain ⟨t, ht, -⟩ := h.live _ hi
        rw [List.getElem?_eq_none le_rfl] at ht
        cases ht
      have hflight : Accounted (q.cached sub) q.inHand 0 (q.objects.length ::ₘ 0) := by
        refine ⟨?_, hcreated.live, hcreated.reported, fun i t ht he hi => ?_⟩
        · rw [add_zero, Multiset.add_cons, add_zero, Multiset.nodup_cons]
          exact ⟨hnew, by simpa using hcreated.nodup⟩
        · refine hcreated.settled i t ht he fun hm => hi ?_
          rw [Multiset.add_cons]
          exact Multiset.mem_cons_of_mem hm
      have hobject : (q.cached sub).objects[q.objects.length]? =
          some (sub.task (q.objects.length + 1)) := List.getElem?_concat_length
      have hpush := (hflight.modify fun t => { t with enqueued := true }).push
        (AsyncWriteQueue.modify_object hobject _) ⟨rfl, rfl, rfl, rfl, rfl, rfl⟩
      exact hpush.congr rfl rfl

/-- Steps that only carry tasks from the heap to the workers, or nothing. -/
theorem Conserved.moved (h : q.Conserved) (hmoves : a.Moves) (hs : q.step models a = some q') :
    q'.objects = q.objects ∧ (q'.queue : Multiset ℕ) + q'.inHand = q.queue + q.inHand := by
  have hset : ∀ {k w₀ w}, q.workers[k]? = some w₀ → w.tasks.Perm w₀.tasks →
      (q.queue : Multiset ℕ) + (q.setWorker k w).inHand = q.queue + q.inHand := by
    intro k w₀ w hk hperm
    have hset := inHand_setWorker hk w
    rw [Multiset.coe_eq_coe.mpr hperm] at hset
    exact congrArg _ (add_right_cancel hset)
  cases stepped hs with
  | start =>
      unfold startWorkers
      split_ifs
      · exact ⟨rfl, rfl⟩
      · refine ⟨rfl, ?_⟩
        simp [inHand, List.flatMap_append, List.flatMap_replicate, Worker.tasks]
  | stop => exact ⟨rfl, rfl⟩
  | clear => exact hmoves.elim
  | submit sub => exact hmoves.elim
  | enter hw =>
      split_ifs
      · exact ⟨rfl, hset hw (.refl _)⟩
      · exact ⟨rfl, hset hw (.refl _)⟩
  | @pop k tasks i rest hw hq _ =>
      have hset := inHand_setWorker hw (.collecting (tasks ++ [i]))
      have hhands : (q.setWorker k (.collecting (tasks ++ [i]))).inHand = i ::ₘ q.inHand := by
        simp only [Worker.tasks, ← Multiset.coe_add, Multiset.coe_singleton] at hset
        rw [← add_assoc, add_right_comm] at hset
        rw [add_right_cancel hset, add_comm, Multiset.singleton_add]
      refine ⟨rfl, ?_⟩
      have hinHand : (q.popped k tasks i rest).inHand = i ::ₘ q.inHand := hhands
      have hqueue : (q.queue : Multiset ℕ) = i ::ₘ (rest : Multiset ℕ) := by
        rw [hq, Multiset.cons_coe]
      rw [hinHand, hqueue, Multiset.add_cons, Multiset.cons_add]
      rfl
  | emptyBatch hw => exact ⟨rfl, hset hw (.refl _)⟩
  | @startBatch k tasks hw _ =>
      refine ⟨rfl, hset hw (grouped_perm fun i hi => ?_)⟩
      have hmem : i ∈ q.inHand :=
        Multiset.mem_coe.mpr (List.mem_flatMap.mpr ⟨_, List.mem_of_getElem? hw, hi⟩)
      obtain ⟨t, ht, -⟩ := h.live i (Multiset.mem_add.mpr (.inr hmem))
      exact (List.getElem?_eq_some_iff.mp ht).1
  | runGroup => exact hmoves.elim

/-- A worker is done with a group: its other tasks stay in its hands. -/
theorem inHand_afterGroup {k : ℕ} {model : String} {is : List ℕ} {rest : List (String × List ℕ)}
    {faults : List (Option Fault)} {commitFault : Option String}
    (hw : q.workers[k]? = some (.executing ((model, is) :: rest))) :
    q.inHand = is +
      ((q.executeModelBatch models model is faults commitFault).afterGroup k rest).inHand := by
  obtain ⟨-, -, -, w, hworkers, htasks⟩ := afterGroup_spec
    (q.executeModelBatch models model is faults commitFault) k rest
  have hset := inHand_setWorker hw w
  have hbatch : Evolves is q _ := .executeModelBatch models model faults commitFault
  have hsame : (q.setWorker k w).inHand =
      ((q.executeModelBatch models model is faults commitFault).afterGroup k rest).inHand := by
    rw [inHand, inHand, hworkers, hbatch.workers]
    rfl
  rw [Worker.tasks, List.flatMap_cons, ← Multiset.coe_add, htasks, ← add_assoc] at hset
  rw [← add_right_cancel hset, add_comm, hsame]

/-- The tasks of a group are different ones, and nothing of them is decided. -/
theorem Conserved.group (h : q.Conserved) {k : ℕ} {model : String} {is : List ℕ}
    {rest : List (String × List ℕ)} (hw : q.workers[k]? = some (.executing ((model, is) :: rest))) :
    is.Nodup ∧ ∀ i ∈ is, i ∈ q.inHand ∧ ∃ t, q.objects[i]? = some t ∧ t.Open := by
  have hmem : ∀ i ∈ is, i ∈ q.inHand := by
    intro i hi
    exact Multiset.mem_coe.mpr (List.mem_flatMap.mpr ⟨_, List.mem_of_getElem? hw,
      by simp [Worker.tasks, hi]⟩)
  refine ⟨?_, fun i hi => ⟨hmem i hi, h.live i (Multiset.mem_add.mpr (.inr (hmem i hi)))⟩⟩
  have hall := h.nodup
  have hset := inHand_setWorker hw (.executing rest)
  rw [Worker.tasks, List.flatMap_cons, ← Multiset.coe_add, Worker.tasks, ← add_assoc] at hset
  rw [add_zero, add_zero, ← add_right_cancel hset] at hall
  exact Multiset.coe_nodup.mp (Multiset.nodup_add.mp (Multiset.nodup_add.mp hall).2.1).2.1

theorem Conserved.step (h : q.Conserved) (hplain : a.Plain) (hk : q.keepsReports models a)
    (hs : q.step models a = some q') : q'.Conserved := by
  have hmoved : a.Moves → q'.Conserved := by
    intro hmoves
    obtain ⟨ho, hq⟩ := h.moved hmoves hs
    exact h.congr ho hq
  cases stepped hs with
  | start => exact hmoved trivial
  | stop => exact hmoved trivial
  | clear => exact hplain.elim
  | submit sub => exact h.submit hplain
  | enter => exact hmoved trivial
  | pop => exact hmoved trivial
  | emptyBatch => exact hmoved trivial
  | startBatch => exact hmoved trivial
  | @runGroup k model is rest faults commitFault hw =>
      obtain ⟨ho, hqueue, -⟩ := afterGroup_spec
        (q.executeModelBatch models model is faults commitFault) k rest
      simp only [keepsReports, hw] at hk
      have hhands : q.inHand = is +
          ((q.executeModelBatch models model is faults commitFault).afterGroup k rest).inHand :=
        inHand_afterGroup hw
      have hin : Accounted q (is + ((q.executeModelBatch models model is faults
          commitFault).afterGroup k rest).inHand) 0 0 := hhands ▸ h
      exact (hin.executeModelBatch hk).congr ho (by rw [hqueue])

end AsyncWriteQueue

theorem sum_map_modify {α : Type*} {l : List α} {i c : ℕ} (h : i < l.length) {f : α → α}
    {g : α → ℕ} (hf : ∀ a, g (f a) = g a + c) :
    ((l.modify i f).map g).sum = (l.map g).sum + c := by
  induction l generalizing i with
  | nil => simp at h
  | cons b l ih =>
      cases i with
      | zero =>
          simp only [List.modify_zero_cons, List.map_cons, List.sum_cons, hf]
          omega
      | succ i =>
          have hrest := ih (i := i) (by simpa using h)
          simp only [List.modify_succ_cons, List.map_cons, List.sum_cons]
          omega

/-- The metrics count the reports of all tasks. -/
structure Counted (q : AsyncWriteQueue V) : Prop where
  completed : q.metrics.completedTasks = (q.objects.map WriteTask.completed).sum
  failed : q.metrics.failedTasks = (q.objects.map WriteTask.failed).sum

namespace Counted
variable {models : Models V} {q : AsyncWriteQueue V} {is : List ℕ} {i : ℕ}

theorem modify (h : Counted q) (f : WriteTask V → WriteTask V)
    (hf : ∀ t, (f t).completed = t.completed ∧ (f t).failed = t.failed) :
    Counted (q.modify i f) := by
  by_cases hi : i < q.objects.length
  · refine ⟨h.completed.trans ?_, h.failed.trans ?_⟩
    · exact (sum_map_modify (c := 0) (g := WriteTask.completed) hi fun t => (hf t).1).symm
    · exact (sum_map_modify (c := 0) (g := WriteTask.failed) hi fun t => (hf t).2).symm
  · have hsame : (q.modify i f).objects = q.objects := List.modify_eq_self (by omega)
    exact ⟨hsame ▸ h.completed, hsame ▸ h.failed⟩

theorem failTask (h : Counted q) (hi : i < q.objects.length) (e : String) :
    Counted (q.failTask i e) := by
  refine ⟨h.completed.trans ?_, (congrArg (· + 1) h.failed).trans ?_⟩
  · exact (sum_map_modify (c := 0) (f := fun t => t.fail e) (g := WriteTask.completed) hi
      fun _ => rfl).symm
  · exact (sum_map_modify (c := 1) (f := fun t => t.fail e) (g := WriteTask.failed) hi
      fun _ => rfl).symm

theorem completeTask (h : Counted q) (hi : i < q.objects.length) :
    Counted (q.completeTask i) := by
  refine ⟨(congrArg (· + 1) h.completed).trans ?_, h.failed.trans ?_⟩
  · exact (sum_map_modify (c := 1) (f := WriteTask.succeed) (g := WriteTask.completed) hi
      fun _ => rfl).symm
  · exact (sum_map_modify (c := 0) (f := WriteTask.succeed) (g := WriteTask.failed) hi
      fun _ => rfl).symm

theorem retryTask (h : Counted q) (hi : i < q.objects.length) (e : String) :
    Counted (q.retryTask i e) := by
  have hcount : Counted (q.modify i WriteTask.countRetry) := h.modify _ fun _ => ⟨rfl, rfl⟩
  have hlen : i < (q.modify i WriteTask.countRetry).objects.length := by
    rw [AsyncWriteQueue.modify, List.length_modify]
    exact hi
  unfold AsyncWriteQueue.retryTask
  dsimp only
  split
  · exact hcount
  · split_ifs
    · exact hcount.failTask hlen e
    · have hraise := hcount.modify (i := i) WriteTask.raisePriority fun _ => ⟨rfl, rfl⟩
      exact ⟨hraise.completed, hraise.failed⟩

theorem runTask (h : Counted q) (s : Session V) (hi : i < q.objects.length)
    (fault : Option Fault) : Counted (AsyncWriteQueue.runTask models q s i fault).1 := by
  unfold AsyncWriteQueue.runTask
  split
  · exact h
  · rename_i t _
    have hattempt := h.modify (i := i) (fun t' => t'.attempt
      (executeSingleTask models i t.write fault s).write) fun _ => ⟨rfl, rfl⟩
    have hlen : i < (q.modify i fun t' => t'.attempt
        (executeSingleTask models i t.write fault s).write).objects.length := by
      rw [AsyncWriteQueue.modify, List.length_modify]
      exact hi
    dsimp only
    split
    · exact hattempt.completeTask hlen
    · exact hattempt.retryTask hlen _

theorem foldl {g : AsyncWriteQueue V → ℕ → AsyncWriteQueue V} (h : Counted q)
    (hg : ∀ q i, i < q.objects.length → Counted q → Counted (g q i))
    (hlen : ∀ q i, (g q i).objects.length = q.objects.length)
    (his : ∀ i ∈ is, i < q.objects.length) : Counted (is.foldl g q) := by
  induction is generalizing q with
  | nil => exact h
  | cons i is ih =>
      rw [List.forall_mem_cons] at his
      refine ih (hg q i his.1 h) fun j hj => ?_
      rw [hlen]
      exact his.2 j hj

theorem markCommitted (h : Counted q) (js : List ℕ) : Counted (q.markCommitted js) := by
  induction js generalizing q with
  | nil => exact h
  | cons j js ih => exact ih (h.modify _ fun _ => ⟨rfl, rfl⟩)

theorem runTasks (h : Counted q) (s : Session V) (his : ∀ i ∈ is, i < q.objects.length)
    (faults : List (Option Fault)) :
    Counted (AsyncWriteQueue.runTasks models q s is faults).1 := by
  induction is generalizing q s faults with
  | nil => exact h
  | cons i is ih =>
      rw [List.forall_mem_cons] at his
      refine ih (h.runTask s his.1 _) _ (fun j hj => ?_) _
      have hturn : Evolves [i] q _ := .runTask models s List.mem_cons_self (faults.headD none)
      rw [hturn.length]
      exact his.2 j hj

theorem executeModelBatch (h : Counted q) (model : String) (his : ∀ i ∈ is, i < q.objects.length)
    (faults : List (Option Fault)) (commitFault : Option String) :
    Counted (q.executeModelBatch models model is faults commitFault) := by
  have hrun : Counted (AsyncWriteQueue.runTasks models q (Session.begin (q.db model)) is
      faults).1 := h.runTasks _ his faults
  have hlen := (Evolves.runTasks (q := q) models (Session.begin (q.db model)) is
    (fun _ h => h) faults).length
  have hmark : ∀ js, Counted ((AsyncWriteQueue.runTasks models q (Session.begin (q.db model)) is
      faults).1.markCommitted js) := hrun.markCommitted
  unfold AsyncWriteQueue.executeModelBatch AsyncWriteQueue.closeSession
  split_ifs
  · dsimp only
    split
    · exact ⟨(hmark _).completed, (hmark _).failed⟩
    · refine foldl ⟨(hmark _).completed, (hmark _).failed⟩ (fun q i hi h => h.retryTask hi _)
        (fun q i => (Evolves.retryTask (List.mem_singleton_self i) _).length) fun i hi => ?_
      have hmarked := fun js => (Evolves.markCommitted
        (q := (AsyncWriteQueue.runTasks models q (Session.begin (q.db model)) is faults).1)
        js fun _ h => h).length
      exact (his i hi).trans_eq (hlen.symm.trans (hmarked _).symm)
  · exact h.foldl (fun q i hi h => h.failTask hi _) (fun q i => List.length_modify _ _ _) his

theorem submit (h : Counted q) (sub : Submission V) : Counted (q.submit sub).1 := by
  have hcreated : Counted (q.created sub) := by
    constructor
    · simp [AsyncWriteQueue.created, h.completed, Submission.task]
    · simp [AsyncWriteQueue.created, h.failed, Submission.task]
  have hout := AsyncWriteQueue.submitted q sub
  generalize q.submit sub = out at hout ⊢
  cases hout with
  | notRunning => exact h
  | @merged _ j =>
      have hmerge := hcreated.modify (i := j) (fun t => t.merge sub.write.data) fun _ => ⟨rfl, rfl⟩
      exact ⟨hmerge.completed, hmerge.failed⟩
  | full => exact ⟨hcreated.completed, hcreated.failed⟩
  | accepted =>
      have henqueue := hcreated.modify (i := q.objects.length)
        (fun t => { t with enqueued := true }) fun _ => ⟨rfl, rfl⟩
      exact ⟨henqueue.completed, henqueue.failed⟩

theorem step {q' : AsyncWriteQueue V} {a : Action V} (h : Counted q) (ht : q.Traced)
    (hs : q.step models a = some q') : Counted q' := by
  cases AsyncWriteQueue.stepped hs with
  | start =>
      unfold AsyncWriteQueue.startWorkers
      split_ifs
      · exact h
      · exact ⟨h.completed, h.failed⟩
  | submit sub => exact h.submit sub
  | @runGroup k model is rest faults commitFault hw =>
      have hbatch : Counted (q.executeModelBatch models model is faults commitFault) :=
        h.executeModelBatch model (fun i hi =>
          ht.inHand _ (List.mem_of_getElem? hw) i (by simp [Worker.tasks, hi])) faults commitFault
      unfold AsyncWriteQueue.afterGroup
      split
      · exact ⟨hbatch.completed, hbatch.failed⟩
      · exact ⟨hbatch.completed, hbatch.failed⟩
  | stop => exact ⟨h.completed, h.failed⟩
  | clear => exact ⟨h.completed, h.failed⟩
  | enter => exact ⟨h.completed, h.failed⟩
  | pop => exact ⟨h.completed, h.failed⟩
  | emptyBatch => exact ⟨h.completed, h.failed⟩
  | startBatch => exact ⟨h.completed, h.failed⟩

end Counted

/-- One final outcome: one count, one call, and a success told exactly for a committed
write. -/
structure WriteTask.OneOutcome (t : WriteTask V) : Prop where
  counted : t.completed + t.failed = 1
  called : t.callback = true → t.told.length = 1
  success : t.callback = true → (t.told = [none] ↔ t.accepted ∈ t.commits)

namespace AsyncWriteQueue
variable {models : Models V} {q : AsyncWriteQueue V} {maxQueueSize batchSize maxWorkers : ℕ}
  {db : String → Table V} {as : List (Action V)}

/-- Nothing waits in the heap or in a worker's hands. -/
def Drained (q : AsyncWriteQueue V) : Prop := q.queue = [] ∧ ∀ w ∈ q.workers, w.tasks = []

instance (q : AsyncWriteQueue V) : Decidable q.Drained := inferInstanceAs (Decidable (_ ∧ _))

theorem conserved_initial : (initial maxQueueSize batchSize maxWorkers db).Conserved := by
  refine ⟨Multiset.nodup_zero, fun i hi => ?_, fun i hi => ?_, fun i t ht => ?_⟩
  · exact absurd hi (Multiset.notMem_zero i)
  · exact absurd hi (Multiset.notMem_zero i)
  · simp [initial] at ht

theorem Conserved.oneOutcome (h : q.Conserved) (hd : q.Drained) {t : WriteTask V}
    (ht : t ∈ q.objects) (he : t.enqueued = true) : t.OneOutcome := by
  obtain ⟨i, hi⟩ := List.mem_iff_getElem?.mp ht
  have hempty : q.inHand = 0 := by
    rw [inHand, List.flatMap_eq_nil_iff.mpr hd.2, Multiset.coe_nil]
  have hout := h.settled i t hi he (by simp [hd.1, hempty])
  rcases hout with ⟨hc, hf, htold, hcommits⟩ | ⟨hc, hf, ⟨e, htold⟩, hcommits⟩
  · refine ⟨by omega, fun hcall => ?_, fun hcall => ?_⟩
    · simp [htold, WriteTask.calls, hcall]
    · simp [htold, WriteTask.calls, hcall, hcommits]
  · refine ⟨by omega, fun hcall => ?_, fun hcall => ?_⟩
    · simp [htold, WriteTask.calls, hcall]
    · simp [htold, WriteTask.calls, hcall, hcommits]

/-- In every run without merge keys whose groups take nothing back: no task is in the heap
twice, and once the queue is drained every accepted task has its one outcome. -/
theorem one_outcome (hplain : ∀ a ∈ as, a.Plain)
    (hkeep : PartialRun.Along (step models) (fun q a => q.keepsReports models a)
      (initial maxQueueSize batchSize maxWorkers db) as)
    (hrun : PartialRun.exec (step models) (initial maxQueueSize batchSize maxWorkers db) as =
      some q) :
    q.queue.Nodup ∧
      q.metrics.completedTasks = (q.objects.map WriteTask.completed).sum ∧
      q.metrics.failedTasks = (q.objects.map WriteTask.failed).sum ∧
      (q.Drained → ∀ t ∈ q.objects, t.enqueued = true → t.OneOutcome) := by
  have hinv : q.Conserved ∧ q.Traced ∧ Counted q := by
    refine PartialRun.invariant_of_along (I := fun q => q.Conserved ∧ q.Traced ∧ Counted q)
      (P := fun q a => q.keepsReports models a = true ∧ a.Plain) ?_ ?_ ?_ hrun
    · intro q a q' h hP hs
      exact ⟨h.1.step hP.2 hP.1 hs, h.2.1.step hs, h.2.2.step h.2.1 hs⟩
    · exact ⟨conserved_initial, traced_initial _ _ _ _, rfl, rfl⟩
    · refine PartialRun.along_and.mpr ⟨hkeep, PartialRun.along_iff_split.mpr ?_⟩
      rintro pre a post rfl u -
      exact hplain a (by simp)
  have hnodup := hinv.1.nodup
  rw [add_zero, add_zero, Multiset.nodup_add] at hnodup
  exact ⟨hnodup.1, hinv.2.2.completed, hinv.2.2.failed, fun hd t ht he => hinv.1.oneOutcome hd ht he⟩

/-- An INSERT that meets a locked database once is reported once, by its commit. -/
theorem insert_one_outcome :
    ∃ q, PartialRun.exec (step plainModels) (initial 10 10 1 oneItem)
        (lockedOnce ⟨.insert, "Item", kwargs [("name", 5)]⟩) = some q ∧
      ∀ t ∈ q.objects, t.enqueued = true → t.OneOutcome := by
  have hrun : (PartialRun.exec (step plainModels) (initial 10 10 1 oneItem)
      (lockedOnce ⟨.insert, "Item", kwargs [("name", 5)]⟩)).map
        (fun q => decide q.Drained) = some true := by decide +kernel
  obtain ⟨q, hq, hdrained⟩ := Option.map_eq_some_iff.mp hrun
  have hall := one_outcome (by simp [lockedOnce, oneBatch, Action.Plain, Submission.key])
    (by decide +kernel) hq
  exact ⟨q, hq, hall.2.2.2 (of_decide_eq_true hdrained)⟩

/-- A failed commit takes a reported success back and the task is told another one. -/
theorem told_twice :
    ∃ q t, PartialRun.exec (step plainModels) (initial 10 10 1 oneItem)
        ([.start, .submit { write := ⟨.insert, "Item", kwargs [("name", 5)]⟩, callback := true }] ++
          oneBatch [] (some "database is locked") ++ oneBatch [] none) = some q ∧
      q.Drained ∧ t ∈ q.objects ∧ t.enqueued = true ∧ t.completed = 2 ∧ t.told = [none, none] ∧
      ¬ t.OneOutcome := by
  have hrun : (PartialRun.exec (step plainModels) (initial 10 10 1 oneItem)
      ([.start, .submit { write := ⟨.insert, "Item", kwargs [("name", 5)]⟩, callback := true }] ++
        oneBatch [] (some "database is locked") ++ oneBatch [] none)).map
      (fun q => (decide q.Drained, q.objects.map fun t =>
        decide (t.enqueued = true ∧ t.completed = 2 ∧ t.told = [none, none]))) =
      some (true, [true]) := by decide +kernel
  obtain ⟨q, hq, hout⟩ := Option.map_eq_some_iff.mp hrun
  obtain ⟨hdrained, hobj⟩ := Prod.mk.inj hout
  obtain ⟨t, hobj, ht⟩ := List.map_eq_singleton_iff.mp hobj
  obtain ⟨he, hc, htold⟩ := of_decide_eq_true ht
  refine ⟨q, t, hq, of_decide_eq_true hdrained, hobj ▸ List.mem_singleton_self t, he, hc, htold,
    fun hone => ?_⟩
  have hcount := hone.counted
  omega

end AsyncWriteQueue

end SmartMedia.WriteQueue
