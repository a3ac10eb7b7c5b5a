import SmartMedia.Platform.Release

/-!
# Who still holds the lease when `run_task` writes?

The heartbeat, `record_task_failure` and the clean-up ask for the owner before they
write; `run_task` does not. A claim hands out a lease together with an attempt
number. Until somebody gives the lease back, nobody else can claim the row and both
stay; once it is given back, that pair of owner and attempt never returns. So the
writes of a run are covered by its lease exactly when no one gave it back before.
-/
namespace SmartMedia.Platform

namespace System

/-- The row is leased to `owner` for its attempt `n`. -/
def HoldsLease (s : System) (id : ℕ) (owner : String) (n : ℕ) : Prop :=
  ∃ t, s.tasks[id]? = some t ∧ t.leaseOwner = some owner ∧ t.attempt = n

/-- The `run_task` of run `k` commits a status, a progress, an error text or a
completion time. -/
def WritesOutcome (s : System) (k : ℕ) : Action → Prop
  | .runStep j now .go => j = k ∧ ∃ r u r', s.runs[k]? = some r ∧
      r.runTask now s.tasks[r.taskId]? = some (u, r') ∧ u.writesOutcome = true
  | _ => False

/-- The commits that set `lease_owner` back to null: a recovery that selected the row,
a recorded failure, and the clean-up of a run that read the row in a terminal state. -/
def GivesLeaseBack (s : System) (id : ℕ) : Action → Prop
  | .recoverCommit k => ∃ rec copy, s.recoveries[k]?.join = some rec ∧ (id, copy) ∈ rec.selected
  | .failureCommit k => ∃ f, s.failures[k]?.join = some f ∧ f.id = id
  | .runStep k _ .go => ∃ r, s.runs[k]? = some r ∧ r.taskId = id ∧ r.point = .commitClear ∧
      r.copy.status ∈ taskTerminalStates
  | _ => False

/-- The lease stands, and the row is not up for another claim. -/
def LeaseStands (s : System) (id : ℕ) (owner : String) (n : ℕ) : Prop :=
  ∃ t, s.tasks[id]? = some t ∧ t.leaseOwner = some owner ∧ t.attempt = n ∧
    t.status ∉ taskLeaseableStates

/-- The lease was given back; a later owner has a later attempt. -/
def LeaseLost (s : System) (id n : ℕ) : Prop :=
  ∃ t, s.tasks[id]? = some t ∧ (n < t.attempt ∨ t.attempt = n ∧ t.leaseOwner = none)

end System

namespace Run
variable {now : Time} {row : Option Task} {t : Task} {ev : RunEvent} {r r' : Run} {u : TaskUpdate}

theorem clearUpdate_none {copy : Task} (h : copy.status ∉ taskTerminalStates) :
    clearUpdate now copy = none := by
  have hfailed : copy.status ≠ .failed := by
    intro he
    rw [he] at h
    exact h (by decide)
  rw [clearUpdate, if_neg (fun hc => hfailed hc.1), if_neg h]

theorem clearUpdate_some {copy : Task} (h : copy.status ∈ taskTerminalStates) :
    ((clearUpdate now copy).getD {}).leaseOwner = some none := by
  unfold clearUpdate
  split_ifs <;> rfl

/-- A step that is no release leaves the owner, and the row stays off the market. -/
theorem advance_keeps_lease (h : r.advance now row ev = some (u, r'))
    (hn : ev = .go → r.point = .commitClear → r.copy.status ∉ taskTerminalStates) :
    u.leaseOwner = none ∧ ∀ st, u.status = some st → st ∉ taskLeaseableStates := by
  have hspec := advance_spec h
  by_cases hp : r.point = .commitClear
  · cases ev with
    | go =>
        rw [advance_commitClear hp, clearUpdate_none (hn rfl hp)] at h
        obtain ⟨rfl, -⟩ := commit_eq_some h
        exact ⟨rfl, fun st hst => (by cases hst)⟩
    | _ => simp [advance, interrupted, hp] at h
  · refine ⟨(hspec.lease hp).1, fun st hst => ?_⟩
    have hmem := hspec.status st hst
    cases hq : r.point <;> simp_all [RunPoint.statusWrites, taskLeaseableStates]
    all_goals rcases hmem with rfl | rfl <;> simp

end Run

namespace System
variable {s s' : System} {a : Action} {k id n : ℕ} {owner : String} {t : Task} {u : TaskUpdate}

/-- A claim hands out a standing lease. -/
theorem leaseStands_of_claim {j : ℕ} {r : Run} (h : s.step (.claimUpdate j) = some s')
    (hr : s'.runs = s.runs ++ [r]) : s'.LeaseStands r.taskId r.owner r.copy.attempt := by
  cases stepped h with
  | idle _ hne => exact absurd rfl (hne j)
  | claimMiss _ => simp at hr
  | @claimUpdate _ c row copy hc hrow hg hcopy =>
      obtain rfl := (List.cons.inj (List.append_cancel_left hr)).1
      have hnew := step_row_of_writes h (.claim hc hrow hg) hrow
      have hcopy' : copy = (Platform.claimUpdate c.owner c.leaseSeconds c.now row).apply row :=
        Option.some.inj (hcopy.symm.trans hnew)
      refine ⟨_, hnew, rfl, ?_, by simp [taskLeaseableStates]⟩
      rw [hcopy']

/-- A write that does not give the lease back keeps it, its attempt, and the status
off the market. -/
theorem Writes.keeps_lease (hw : s.Writes a id u) (hn : ¬ s.GivesLeaseBack id a)
    (ht : s.tasks[id]? = some t) (hb : t.status ∉ taskLeaseableStates) :
    u.leaseOwner = none ∧ u.attempt = none ∧
      ∀ st, u.status = some st → st ∉ taskLeaseableStates := by
  cases hw with
  | claim hc hrow hg =>
      cases hrow.symm.trans ht
      exact absurd (claimable_status hg) hb
  | heartbeat => exact ⟨rfl, rfl, fun st hst => (by cases hst)⟩
  | recover hrec hm => exact absurd ⟨_, _, hrec, hm⟩ hn
  | failure hf => exact absurd ⟨_, hf, rfl⟩ hn
  | @run k now ev r r' u hr hadv =>
      have hkeep := Run.advance_keeps_lease hadv (fun hev hp hc => hn (by
        subst hev
        exact ⟨r, hr, rfl, hp, hc⟩))
      exact ⟨hkeep.1, (Run.advance_spec hadv).attempt, hkeep.2⟩
  | @cancel _ w _ =>
      have hspec := cancelUpdate_spec w.made
      refine ⟨hspec.2.1, hspec.2.2.2.2, fun st hst => ?_⟩
      have hmem := hspec.1 st hst
      revert hmem
      cases st <;> decide

theorem LeaseStands.step (hl : s.LeaseStands id owner n) (hn : ¬ s.GivesLeaseBack id a)
    (h : s.step a = some s') : s'.LeaseStands id owner n := by
  obtain ⟨t, ht, ho, ha, hb⟩ := hl
  rcases step_row h ht with ⟨u, hw, ht'⟩ | ⟨-, ht'⟩
  · have hkeep := hw.keeps_lease hn ht hb
    refine ⟨_, ht', ?_, ?_, ?_⟩
    · rw [TaskUpdate.apply_leaseOwner, hkeep.1, Option.getD_none, ho]
    · rw [TaskUpdate.apply_attempt, hkeep.2.1, Option.getD_none, ha]
    · rw [TaskUpdate.apply_status]
      cases hu : u.status with
      | none => exact hb
      | some st => exact hkeep.2.2 st hu
  · exact ⟨t, ht', ho, ha, hb⟩

/-- Giving the lease back writes a null owner and no attempt. -/
theorem GivesLeaseBack.writes (hg : s.GivesLeaseBack id a) (h : s.step a = some s') :
    ∃ u, s.Writes a id u ∧ u.leaseOwner = some none ∧ u.attempt = none := by
  cases a with
  | recoverCommit k =>
      obtain ⟨rec, copy, hrec, hm⟩ := hg
      exact ⟨_, .recover hrec hm, recoverUpdate_leaseOwner _ _, recoverUpdate_attempt _ _⟩
  | failureCommit k =>
      obtain ⟨f, hf, rfl⟩ := hg
      exact ⟨_, .failure hf, failureUpdate_leaseOwner _ _ _ _ _, failureUpdate_attempt _ _ _ _ _⟩
  | runStep k now ev =>
      cases ev with
      | go =>
          obtain ⟨r, hr, rfl, hp, hc⟩ := hg
          simp only [System.step, Option.bind_eq_bind, Option.bind_eq_some_iff] at h
          obtain ⟨q, hq, ⟨u, r'⟩, hadv, -⟩ := h
          obtain rfl := Option.some.inj (hq.symm.trans hr)
          refine ⟨u, .run hr hadv, ?_, (Run.advance_spec hadv).attempt⟩
          rw [Run.advance_commitClear hp] at hadv
          rw [(Run.commit_eq_some hadv).1]
          exact Run.clearUpdate_some hc
      | _ => exact hg.elim
  | _ => exact hg.elim

theorem LeaseStands.lost (hl : s.LeaseStands id owner n) (hg : s.GivesLeaseBack id a)
    (h : s.step a = some s') : s'.LeaseLost id n := by
  obtain ⟨t, ht, -, ha, -⟩ := hl
  obtain ⟨u, hw, ho, hu⟩ := hg.writes h
  refine ⟨_, step_row_of_writes h hw ht, .inr ⟨?_, ?_⟩⟩
  · rw [TaskUpdate.apply_attempt, hu, Option.getD_none, ha]
  · rw [TaskUpdate.apply_leaseOwner, ho, Option.getD_some]

/-- Only a claim names an owner, and it counts an attempt. -/
theorem Writes.owner_or_attempt (hw : s.Writes a id u) (ht : s.tasks[id]? = some t) :
    u.attempt = some (t.attempt + 1) ∨
      u.attempt = none ∧ (u.leaseOwner = none ∨ u.leaseOwner = some none) := by
  cases hw with
  | claim hc hrow hg =>
      cases hrow.symm.trans ht
      exact .inl rfl
  | heartbeat => exact .inr ⟨rfl, .inl rfl⟩
  | recover _ _ => exact .inr ⟨recoverUpdate_attempt _ _, .inr (recoverUpdate_leaseOwner _ _)⟩
  | failure _ =>
      exact .inr ⟨failureUpdate_attempt _ _ _ _ _, .inr (failureUpdate_leaseOwner _ _ _ _ _)⟩
  | @run k now ev r r' u hr hadv =>
      have hspec := Run.advance_spec hadv
      refine .inr ⟨hspec.attempt, ?_⟩
      by_cases hp : r.point = .commitClear
      · by_cases hc : ev = .go ∧ r.copy.status ∈ taskTerminalStates
        · obtain ⟨rfl, hc⟩ := hc
          rw [Run.advance_commitClear hp] at hadv
          rw [(Run.commit_eq_some hadv).1]
          exact .inr (Run.clearUpdate_some hc)
        · exact .inl (Run.advance_keeps_lease hadv fun hev _ hm => hc ⟨hev, hm⟩).1
      · exact .inl (hspec.lease hp).1
  | @cancel _ w _ =>
      have hspec := cancelUpdate_spec w.made
      exact .inr ⟨hspec.2.2.2.2, .inl hspec.2.1⟩

theorem LeaseLost.step (hl : s.LeaseLost id n) (h : s.step a = some s') : s'.LeaseLost id n := by
  obtain ⟨t, ht, hlost⟩ := hl
  rcases step_row h ht with ⟨u, hw, ht'⟩ | ⟨-, ht'⟩
  · refine ⟨_, ht', ?_⟩
    rw [TaskUpdate.apply_attempt, TaskUpdate.apply_leaseOwner]
    rcases hw.owner_or_attempt ht with hu | ⟨hu, ho⟩
    · rw [hu, Option.getD_some]
      omega
    · rw [hu, Option.getD_none]
      rcases ho with ho | ho
      · rw [ho, Option.getD_none]
        exact hlost
      · rw [ho, Option.getD_some]
        exact hlost.imp_right fun hn => ⟨hn.1, rfl⟩
  · exact ⟨t, ht', hlost⟩

/-- From its claim on, a run holds its lease exactly as long as nobody gave it back. -/
theorem holdsLease_iff {s₀ s₁ : System} {j : ℕ} {r : Run} {as : List Action}
    (hclaim : s₀.step (.claimUpdate j) = some s₁) (hr : s₁.runs = s₀.runs ++ [r])
    (hrun : exec s₁ as = some s) :
    s.HoldsLease r.taskId r.owner r.copy.attempt ↔
      PartialRun.Along System.step (fun s a => ¬ s.GivesLeaseBack r.taskId a) s₁ as := by
  have hcases := PartialRun.along_or_lost
    (P := fun s a => ¬ s.GivesLeaseBack r.taskId a)
    (J := fun s => s.LeaseLost r.taskId r.copy.attempt)
    (fun s a s' hs hP h => LeaseStands.step hs hP h)
    (fun s a s' hs hP h => LeaseStands.lost hs (not_not.mp hP) h)
    (fun s a s' hs h => LeaseLost.step hs h) (leaseStands_of_claim hclaim hr) hrun
  rcases hcases with ⟨halong, t, ht, ho, ha, -⟩ | ⟨halong, t, ht, hlost⟩
  · exact ⟨fun _ => halong, fun _ => ⟨t, ht, ho, ha⟩⟩
  · refine ⟨fun ⟨t', ht', ho, ha⟩ => ?_, fun h => absurd h halong⟩
    obtain rfl := Option.some.inj (ht.symm.trans ht')
    rcases hlost with hlt | ⟨-, hnone⟩
    · omega
    · rw [ho] at hnone
      cases hnone

/-- The writes of a run happen under its lease exactly if, at each of them, nobody has
given the lease back since the claim. -/
theorem writes_under_lease_iff {s₀ s₁ : System} {j : ℕ} {r : Run} {as : List Action}
    (hclaim : s₀.step (.claimUpdate j) = some s₁) (hr : s₁.runs = s₀.runs ++ [r]) :
    PartialRun.Along step (fun s a => s.WritesOutcome s₀.runs.length a →
        s.HoldsLease r.taskId r.owner r.copy.attempt) s₁ as ↔
      ∀ pre a post s, as = pre ++ a :: post → exec s₁ pre = some s →
        s.WritesOutcome s₀.runs.length a →
          PartialRun.Along step (fun s a => ¬ s.GivesLeaseBack r.taskId a) s₁ pre := by
  rw [PartialRun.along_iff_split]
  constructor
  · intro h pre a post s he hs hw
    exact (holdsLease_iff hclaim hr hs).mp (h pre a post he s hs hw)
  · intro h pre a post he s hs hw
    exact (holdsLease_iff hclaim hr hs).mpr (h pre a post s he hs hw)

/-- The query of `run_task` and its first two commits, up to `planning`. -/
def throughPlanning : List Action := [.runStep 0 22 .go, .runStep 0 22 .go, .runStep 0 22 .go]

/-- A worker that is left alone commits `planning` under its lease. -/
theorem planning_under_lease :
    ∃ s₀ s₁ s₂, exec {} [.create { taskType := "sync" } 0,
        .claimSelect "worker-a" 10 1 "00000000"] = some s₀ ∧
      s₀.step (.claimUpdate 0) = some s₁ ∧
      exec s₁ [.runStep 0 22 .go, .runStep 0 22 .go] = some s₂ ∧
      s₂.WritesOutcome 0 (.runStep 0 22 .go) ∧
      PartialRun.Along step (fun s a => s.WritesOutcome 0 a → s.HoldsLease 0 "worker-a" 1)
        s₁ throughPlanning := by
  refine ⟨_, _, _, rfl, rfl, rfl, ⟨rfl, _, _, _, rfl, rfl, rfl⟩, ?_⟩
  let s₀ := (exec {} [.create { taskType := "sync" } 0,
    .claimSelect "worker-a" 10 1 "00000000"]).get rfl
  let s₁ := (s₀.step (.claimUpdate 0)).get rfl
  have hclaim : s₀.step (.claimUpdate 0) = some s₁ := rfl
  refine (writes_under_lease_iff hclaim rfl).mpr fun pre a post s he _ _ => ?_
  -- none of the three steps is the clean-up
  have hpoint : PartialRun.Along step (fun s _ => s.runs[0]?.all (·.point ≠ .commitClear) = true)
      s₁ throughPlanning := by
    decide +kernel
  have hnone : PartialRun.Along step (fun s a => ¬ s.GivesLeaseBack 0 a) s₁ throughPlanning := by
    refine PartialRun.along_iff_split.mpr fun pre a post he u hu => ?_
    have hclear := PartialRun.along_iff_split.mp hpoint pre a post he u hu
    have ha : a = .runStep 0 22 .go := by
      have hmem : a ∈ throughPlanning := he ▸ List.mem_append_right _ List.mem_cons_self
      simpa [throughPlanning] using hmem
    rw [ha]
    rintro ⟨r, hr, -, hp, -⟩
    rw [hr, Option.all_some, hp] at hclear
    cases hclear
  rw [he] at hnone
  exact (PartialRun.along_append.mp hnone).1

/-- A recovery and another worker come in before the first worker's run gets on. -/
def reclaimed : List Action :=
  [.recoverSelect 20, .recoverCommit 0, .claimSelect "worker-b" 300 21 "00000001",
    .claimUpdate 1]

/-- The first worker's run commits `planning` over the second worker's lease. -/
theorem planning_after_reclaim :
    ∃ s₀ s₁ s₂ t, exec {} [.create { taskType := "sync" } 0,
        .claimSelect "worker-a" 10 1 "00000000"] = some s₀ ∧
      s₀.step (.claimUpdate 0) = some s₁ ∧
      exec s₁ (reclaimed ++ [.runStep 0 22 .go, .runStep 0 22 .go]) = some s₂ ∧
      s₂.WritesOutcome 0 (.runStep 0 22 .go) ∧
      s₂.tasks[0]? = some t ∧ t.leaseOwner = some "worker-b" ∧ t.attempt = 2 ∧
      ¬ PartialRun.Along step (fun s a => s.WritesOutcome 0 a → s.HoldsLease 0 "worker-a" 1)
        s₁ (reclaimed ++ throughPlanning) := by
  refine ⟨_, _, _, _, rfl, rfl, rfl, ⟨rfl, _, _, _, rfl, rfl, rfl⟩, rfl, rfl, rfl, fun h => ?_⟩
  have hlast := PartialRun.along_iff_split.mp h (reclaimed ++ [.runStep 0 22 .go,
    .runStep 0 22 .go]) (.runStep 0 22 .go) [] rfl _ rfl
  obtain ⟨t, ht, ho, -⟩ := hlast ⟨rfl, _, _, _, rfl, rfl, rfl⟩
  cases ht
  exact absurd ho (by decide)

end System

end SmartMedia.Platform
