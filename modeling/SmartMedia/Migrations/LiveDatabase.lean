import SmartMedia.Migrations.Backup

/-!
# The live database while backups run

Any number of backups and restores run side by side, each of them may crash, and others write to
files, too. The live database is never missing and never half written as long as no two calls work
on its temporary file at a time.
-/
namespace SmartMedia.Migrations
variable {σ : Type}

structure BackupSystem (σ : Type) where
  files : Files σ
  calls : ℕ → Option BackupCall := fun _ => none

/-- A crash ends a call where it is; `write` is anybody else's. -/
inductive BackupEvent (σ : Type)
  | start (i : ℕ) (job : BackupJob)
  | access (i : ℕ) (outcome : Access σ)
  | crash (i : ℕ)
  | write (path : DbPath) (stored : Option (Stored σ))

def BackupStage.ended : BackupStage → Bool
  | .returned | .raised _ => true
  | _ => false

namespace BackupSystem

/-- A call that has ended is forgotten. -/
def accessed (s : BackupSystem σ) (i : ℕ) (call : BackupCall) (after : Files σ × BackupStage) :
    BackupSystem σ where
  files := after.1
  calls := Function.update s.calls i
    (if after.2.ended then none else some { call with stage := after.2 })

def step (s : BackupSystem σ) : BackupEvent σ → Option (BackupSystem σ)
  | .start i job =>
      if (s.calls i).isNone then some { s with calls := Function.update s.calls i (some { job }) }
      else none
  | .access i outcome =>
      (s.calls i).bind fun call => (call.access s.files outcome).map (s.accessed i call)
  | .crash i => some { s with calls := Function.update s.calls i none }
  | .write path stored => some { s with files := Function.update s.files path stored }

variable {live : DbPath} {expected : Option ℤ} {s s' : BackupSystem σ} {e : BackupEvent σ}
  {events : List (BackupEvent σ)} {i j : ℕ} {call : BackupCall} {outcome : Access σ}
  {files' : Files σ} {stage' : BackupStage}

/-- No call in progress works on the temporary file of the live database. -/
def TempFree (live : DbPath) (s : BackupSystem σ) : Prop :=
  ∀ i call, s.calls i = some call → tempTarget live ∉ call.job.writes

/-- What is asked of those who work with the files: restores of the live database expect its schema
version, no two calls work on its temporary file, and others write only valid databases to it. -/
def Orderly (live : DbPath) (expected : Option ℤ) (s : BackupSystem σ) : BackupEvent σ → Prop
  | .start _ job =>
      (∀ backup overwrite version, job = .restore backup live overwrite version → version = expected) ∧
        (tempTarget live ∈ job.writes → s.TempFree live)
  | .write path stored =>
      (path = live → Accepted expected stored) ∧ (path = tempTarget live → s.TempFree live)
  | _ => True

/-- The live database is there, and what will replace it is valid. -/
structure Protected (live : DbPath) (expected : Option ℤ) (s : BackupSystem σ) : Prop where
  accepted : Accepted expected (s.files live)
  guarded : ∀ i call, s.calls i = some call → call.job.scratch = live →
    call.stage = .begun ∨ call.stage = .validated
  expects : ∀ i call backup overwrite version, s.calls i = some call →
    call.job = .restore backup live overwrite version → version = expected
  checked : ∀ i call backup overwrite version, s.calls i = some call →
    call.job = .restore backup live overwrite version → call.stage = .checked →
      Accepted expected (s.files (tempTarget live))
  single : ∀ i j call other, s.calls i = some call → s.calls j = some other →
    tempTarget live ∈ call.job.writes → tempTarget live ∈ other.job.writes → i = j

section Accesses
variable {files : Files σ} {job : BackupJob} {stage : BackupStage}

/-- An access changes nothing, or the file that the call makes, or it puts that in its place. -/
theorem access_files (h : BackupCall.access files ⟨job, stage⟩ outcome = some (files', stage')) :
    files' = files ∨
    (stage ≠ .begun ∧ stage ≠ .validated ∧ ∃ x, files' = Function.update files job.scratch x) ∨
    ∃ backup target overwrite version, job = .restore backup target overwrite version ∧
      stage = .checked ∧ files' = Function.update (Function.update files target
        (files (tempTarget target))) (tempTarget target) none := by
  rw [BackupCall.access] at h
  cases job with
  | create source target =>
      cases createAccess_of_access h with
      | refused | ready | failed => exact .inl rfl
      | part | copied | undone => exact .inr (.inl ⟨by simp, by simp, _, rfl⟩)
  | restore backup target overwrite version =>
      cases restoreAccess_of_access h with
      | refused | validated | ready | checked | failed => exact .inl rfl
      | part | copied | undone => exact .inr (.inl ⟨by simp, by simp, _, rfl⟩)
      | replaced => exact .inr (.inr ⟨backup, target, overwrite, version, rfl, rfl, rfl⟩)

/-- Other files are left alone. -/
theorem access_frame {p : DbPath} (h : BackupCall.access files ⟨job, stage⟩ outcome = some (files', stage'))
    (hp : p ∉ job.writes) : files' p = files p := by
  rcases access_files h with rfl | ⟨-, -, x, rfl⟩ | ⟨backup, target, overwrite, version, rfl, -, rfl⟩
  · rfl
  · refine Function.update_of_ne ?_ _ _
    rintro rfl
    cases job <;> simp [BackupJob.writes, BackupJob.scratch] at hp
  · have hne : p ≠ tempTarget target ∧ p ≠ target := by simpa [BackupJob.writes] using hp
    rw [Function.update_of_ne hne.1, Function.update_of_ne hne.2]

/-- A copy is validated where it is. -/
theorem access_checked {backup target : DbPath} {overwrite : Bool} {version : Option ℤ}
    (h : BackupCall.access files ⟨.restore backup target overwrite version, stage⟩ outcome =
      some (files', .checked)) : Accepted version (files' (tempTarget target)) := by
  rw [BackupCall.access] at h
  cases restoreAccess_of_access h with
  | checked haccepted => exact haccepted

/-- A call does not get past its checks while the file that it would make is there. -/
theorem access_guarded (h : BackupCall.access files ⟨job, stage⟩ outcome = some (files', stage'))
    (hthere : files job.scratch ≠ none) (hstage : stage = .begun ∨ stage = .validated) :
    stage' = .begun ∨ stage' = .validated ∨ stage'.ended = true := by
  rw [BackupCall.access] at h
  cases job with
  | create source target =>
      cases createAccess_of_access h with
      | refused => exact .inr (.inr rfl)
      | ready hsource hfree => exact absurd hfree hthere
      | part | copied | failed | undone => simp at hstage
  | restore backup target overwrite version =>
      cases restoreAccess_of_access h with
      | refused => exact .inr (.inr rfl)
      | validated => exact .inr (.inl rfl)
      | ready htemp hfree => exact absurd htemp hthere
      | part | copied | checked | replaced | undone => simp at hstage
      | failed _ hpast =>
          rcases hstage with rfl | rfl <;> simp at hpast

end Accesses

/-- What an access leaves of the live database. -/
theorem Protected.live_after {job : BackupJob} {stage : BackupStage} (h : s.Protected live expected)
    (hcall : s.calls i = some ⟨job, stage⟩)
    (haccess : BackupCall.access s.files ⟨job, stage⟩ outcome = some (files', stage')) :
    Accepted expected (files' live) := by
  have hguarded := h.guarded i _ hcall
  rcases access_files haccess with rfl | ⟨hbegun, hvalidated, x, rfl⟩ |
      ⟨backup, target, overwrite, version, rfl, rfl, rfl⟩
  · exact h.accepted
  · have hne : live ≠ job.scratch := by
      rintro rfl
      exact (hguarded rfl).elim hbegun hvalidated
    rw [Function.update_of_ne hne]
    exact h.accepted
  · have hne : live ≠ tempTarget target := by
      intro heq
      have hstage := hguarded heq.symm
      simp at hstage
    rw [Function.update_of_ne hne]
    by_cases htarget : live = target
    · subst htarget
      rw [Function.update_self]
      exact h.checked i _ backup overwrite version hcall rfl rfl
    · rw [Function.update_of_ne htarget]
      exact h.accepted

/-- The temporary file belongs to one call. -/
theorem Protected.temp_after {job : BackupJob} {stage : BackupStage} (h : s.Protected live expected)
    (hcall : s.calls i = some ⟨job, stage⟩) (hother : s.calls j = some call) (hne : j ≠ i)
    (hwrites : tempTarget live ∈ call.job.writes)
    (haccess : BackupCall.access s.files ⟨job, stage⟩ outcome = some (files', stage')) :
    files' (tempTarget live) = s.files (tempTarget live) := by
  apply access_frame haccess
  intro hmem
  exact hne (h.single j i call _ hother hcall hwrites hmem)

theorem temp_mem_writes {backup : DbPath} {overwrite : Bool} {version : Option ℤ}
    (hjob : call.job = .restore backup live overwrite version) : tempTarget live ∈ call.job.writes := by
  rw [hjob]
  exact List.mem_cons_self

theorem Protected.accessed {job : BackupJob} {stage : BackupStage} (h : s.Protected live expected)
    (hcall : s.calls i = some ⟨job, stage⟩)
    (haccess : BackupCall.access s.files ⟨job, stage⟩ outcome = some (files', stage')) :
    (s.accessed i ⟨job, stage⟩ (files', stage')).Protected live expected := by
  -- a call behind the access is the old one, or the same job at its next stage
  have hcalls : ∀ k call, (s.accessed i ⟨job, stage⟩ (files', stage')).calls k = some call →
      k ≠ i ∧ s.calls k = some call ∨ k = i ∧ stage'.ended = false ∧ call = ⟨job, stage'⟩ := by
    intro k call hk
    rw [BackupSystem.accessed] at hk
    dsimp only at hk
    by_cases hki : k = i
    · rw [hki, Function.update_self] at hk
      split_ifs at hk with hended
      exact .inr ⟨hki, Bool.eq_false_iff.mpr hended, (Option.some.inj hk).symm⟩
    · rw [Function.update_of_ne hki] at hk
      exact .inl ⟨hki, hk⟩
  refine ⟨h.live_after hcall haccess, ?_, ?_, ?_, ?_⟩
  · intro k call hk hscratch
    rcases hcalls k call hk with ⟨-, hold⟩ | ⟨-, hgoing, rfl⟩
    · exact h.guarded k call hold hscratch
    · have hthere : s.files job.scratch ≠ none := by
        have hscratch' : job.scratch = live := hscratch
        rw [hscratch']
        exact h.accepted.ne_none
      rcases access_guarded haccess hthere (h.guarded i _ hcall hscratch) with hstage | hstage | hended
      · exact .inl hstage
      · exact .inr hstage
      · exact absurd hended (by rw [hgoing]; exact Bool.false_ne_true)
  · intro k call backup overwrite version hk hjob
    rcases hcalls k call hk with ⟨-, hold⟩ | ⟨-, -, rfl⟩
    · exact h.expects k call backup overwrite version hold hjob
    · exact h.expects i _ backup overwrite version hcall hjob
  · intro k call backup overwrite version hk hjob hstage
    rcases hcalls k call hk with ⟨hki, hold⟩ | ⟨-, -, rfl⟩
    · have htemp := h.temp_after hcall hold hki (temp_mem_writes hjob) haccess
      have hchecked := h.checked k call backup overwrite version hold hjob hstage
      rw [← htemp] at hchecked
      exact hchecked
    · have hversion := h.expects i _ backup overwrite version hcall hjob
      have hjob' : job = .restore backup live overwrite version := hjob
      have hstage' : stage' = .checked := hstage
      rw [hjob', hstage'] at haccess
      rw [← hversion]
      exact access_checked haccess
  · intro k l call other hk hl hmem hmem'
    rcases hcalls k call hk with ⟨-, hold⟩ | ⟨rfl, -, rfl⟩
    · rcases hcalls l other hl with ⟨-, hold'⟩ | ⟨rfl, -, rfl⟩
      · exact h.single k l call other hold hold' hmem hmem'
      · exact h.single k l call _ hold hcall hmem hmem'
    · rcases hcalls l other hl with ⟨-, hold'⟩ | ⟨rfl, -, rfl⟩
      · exact h.single k l _ other hcall hold' hmem hmem'
      · rfl

theorem Protected.started {job : BackupJob} (h : s.Protected live expected) (hfree : s.calls i = none)
    (horderly : Orderly live expected s (.start i job)) :
    Protected live expected { s with calls := Function.update s.calls i (some { job }) } := by
  obtain ⟨hversion, htemp⟩ := horderly
  have hcalls : ∀ k call, Function.update s.calls i (some { job }) k = some call →
      s.calls k = some call ∨ k = i ∧ call = { job } := by
    intro k call hk
    by_cases hki : k = i
    · rw [hki, Function.update_self] at hk
      exact .inr ⟨hki, (Option.some.inj hk).symm⟩
    · rw [Function.update_of_ne hki] at hk
      exact .inl hk
  refine ⟨h.accepted, ?_, ?_, ?_, ?_⟩
  · intro k call hk hscratch
    rcases hcalls k call hk with hold | ⟨-, rfl⟩
    · exact h.guarded k call hold hscratch
    · exact .inl rfl
  · intro k call backup overwrite version hk hjob
    rcases hcalls k call hk with hold | ⟨-, rfl⟩
    · exact h.expects k call backup overwrite version hold hjob
    · exact hversion backup overwrite version hjob
  · intro k call backup overwrite version hk hjob hstage
    rcases hcalls k call hk with hold | ⟨-, rfl⟩
    · exact h.checked k call backup overwrite version hold hjob hstage
    · cases hstage
  · intro k l call other hk hl hmem hmem'
    rcases hcalls k call hk with hold | ⟨rfl, rfl⟩
    · rcases hcalls l other hl with hold' | ⟨rfl, rfl⟩
      · exact h.single k l call other hold hold' hmem hmem'
      · exact absurd hmem (htemp hmem' k call hold)
    · rcases hcalls l other hl with hold' | ⟨rfl, rfl⟩
      · exact absurd hmem' (htemp hmem l other hold')
      · rfl

theorem Protected.crashed (h : s.Protected live expected) :
    Protected live expected { s with calls := Function.update s.calls i none } := by
  have hcalls : ∀ k call, Function.update s.calls i none k = some call → s.calls k = some call := by
    intro k call hk
    by_cases hki : k = i
    · rw [hki, Function.update_self] at hk
      cases hk
    · rwa [Function.update_of_ne hki] at hk
  exact ⟨h.accepted, fun k call hk => h.guarded k call (hcalls k call hk),
    fun k call backup overwrite version hk => h.expects k call backup overwrite version (hcalls k call hk),
    fun k call backup overwrite version hk => h.checked k call backup overwrite version (hcalls k call hk),
    fun k l call other hk hl => h.single k l call other (hcalls k call hk) (hcalls l other hl)⟩

theorem Protected.written {path : DbPath} {stored : Option (Stored σ)} (h : s.Protected live expected)
    (horderly : Orderly live expected s (.write path stored)) :
    Protected live expected { s with files := Function.update s.files path stored } := by
  obtain ⟨hlive, htemp⟩ := horderly
  refine ⟨?_, h.guarded, h.expects, ?_, h.single⟩
  · dsimp only
    by_cases hpath : live = path
    · rw [hpath, Function.update_self]
      exact hlive hpath.symm
    · rw [Function.update_of_ne hpath]
      exact h.accepted
  · intro k call backup overwrite version hk hjob hstage
    dsimp only
    by_cases hpath : tempTarget live = path
    · exact absurd (temp_mem_writes hjob) (htemp hpath.symm k call hk)
    · rw [Function.update_of_ne hpath]
      exact h.checked k call backup overwrite version hk hjob hstage

theorem Protected.step (h : s.Protected live expected) (horderly : Orderly live expected s e)
    (hstep : s.step e = some s') : s'.Protected live expected := by
  cases e with
  | start i job =>
      rw [BackupSystem.step] at hstep
      split_ifs at hstep with hfree
      cases hstep
      exact h.started (Option.isNone_iff_eq_none.mp hfree) horderly
  | access i outcome =>
      rw [BackupSystem.step, Option.bind_eq_some_iff] at hstep
      obtain ⟨⟨job, stage⟩, hcall, hstep⟩ := hstep
      obtain ⟨⟨files', stage'⟩, haccess, rfl⟩ := Option.map_eq_some_iff.mp hstep
      exact h.accessed hcall haccess
  | crash i =>
      cases hstep
      exact h.crashed
  | write path stored =>
      cases hstep
      exact h.written horderly

/-- A restore crashes while it copies. -/
def crashedRestore : List (BackupEvent ℕ) :=
  [.start 0 restoreOnce, .access 0 .ok, .crash 0]

end BackupSystem

end SmartMedia.Migrations
