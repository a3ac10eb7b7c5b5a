import SmartMedia.Media.Rollback

/-!
# What `SmartRenameService.rollback` moves

A conflict sends a file to a numbered path, but the row keeps the planned one, and
`rollback` goes by the row: it then moves whatever stands at the planned target. With
every target free when its row is executed, and a clear way for the related files,
each move of a rollback is opposite to one of the execute, of the same file and row.
-/
namespace SmartMedia.Media
open StateProgram

variable {β : Type}

namespace SmartRenameService
section Rows
variable {env env' : Env} {exts exts' : List Path} {d : Disk β} {item : RenameHistory}

/-- What `preview` of `SmartRenameService` saves. -/
structure Previewed (batch : RenameBatch) : Prop where
  status : batch.status = .previewing
  items : ∀ item ∈ batch.items,
    item.status ∈ [ItemStatus.matched, .parsed, .needsConfirmation, .skipped]

/-- A row is executed with its target free and a clear way: its original path has a
directory part, and no other file stands at a sidecar name of the target. -/
def Ready (exts : List Path) (item : RenameHistory) (d : Disk β) : Prop :=
  ∀ planned, item.newPath = some planned → dirname planned ≠ [] → item.originalPath ∈ d.files →
    planned ∉ d.files ∧ dirname item.originalPath ≠ [] ∧
      Clear exts item.originalPath planned d.files

theorem rollsBack (hs : env.Smooth) : RollsBack (β := β) env exts (rollbackItem env exts) := by
  intro item p d d₁ hnew hne hthere hgone hdir hrun
  refine ⟨{ item with status := .rolledBack, rolledBackAt := some (env.now d₁.calls) }, ?_⟩
  rw [rollbackItem, hnew]
  refine tryCatch_ok ((bind_ok (pathExists_true hthere)).trans ?_)
  rw [if_pos ⟨hne, rfl⟩]
  refine (bind_ok (makeDirs_ok hs hdir)).trans ?_
  refine (bind_ok (pathExists_false (d := { d with calls := d.calls + 1 }) hgone)).trans ?_
  exact (bind_ok hrun).trans rfl

theorem executeItem_spec (hs : env.Smooth) (hs' : env'.Smooth) (hext : IsExtensions exts)
    (hperm : exts'.Perm exts) (hready : Ready exts item d) :
    ∃ item' d₁, executeItem env exts item d = .ok item' d₁ ∧
      ItemSpec env (rollbackItem env' exts') item' d d₁ := by
  simp only [executeItem]
  by_cases hempty : item.newPath.getD [] = []
  · rw [if_pos hempty]
    exact ⟨_, d, rfl, .of_unchanged (by simp [RenameHistory.fail]) rfl rfl le_rfl rfl⟩
  · rw [if_neg hempty]
    obtain ⟨planned, hnew⟩ : ∃ planned, item.newPath = some planned := by
      cases hn : item.newPath with
      | none => exact absurd (by rw [hn]; rfl) hempty
      | some planned => exact ⟨planned, rfl⟩
    have hne : planned ≠ [] := by
      rw [hnew] at hempty
      exact hempty
    rw [hnew, Option.getD_some]
    by_cases hdir : dirname planned = []
    · refine ⟨_, d, tryCatch_error (e := env.missing []) (bind_error ?_), ?_⟩
      · rw [makeDirs, if_pos hdir]
        rfl
      · exact .of_unchanged (by simp [RenameHistory.fail]) rfl rfl le_rfl rfl
    · by_cases hsrc : item.originalPath ∈ d.files
      · obtain ⟨file, hfile⟩ := Finmap.mem_iff.mp hsrc
        obtain ⟨hfree, hdir', hclear⟩ := hready planned hnew hdir hsrc
        obtain ⟨d₁, hrun, hp⟩ := moveWithRelated_performs item.id
          (d := { d with calls := d.calls + 1 }) hs hext hfile hfree hclear
        have hcalls : d.calls + 1 ≤ d₁.calls := hp.calls
        let item' : RenameHistory := { item with
          newPath := some planned
          status := .success
          executedAt := some (env.now d₁.calls) }
        have hundone : UndoneBy (rollbackItem env' exts') [item'] { d with calls := d.calls + 1 } d₁ :=
          undoneBy_moved (rollsBack hs') hs' hext hperm rfl hne hdir' hfile hfree hclear hp
        refine ⟨item', { d₁ with calls := d₁.calls + 1 }, ?_,
          ⟨by show d.calls ≤ d₁.calls + 1; omega, hp.found, ?_, hundone⟩⟩
        · refine tryCatch_ok ((bind_ok (makeDirs_ok hs hdir)).trans ?_)
          have hfinal : freePath d.files planned = planned := freePath_of_notMem hfree
          have hnone : d.files.lookup planned = none := Finmap.lookup_eq_none.mpr hfree
          show (moveWithRelated env exts item.id item.originalPath (freePath d.files planned) >>=
            fun _ => noteFound item.id (d.files.lookup planned) >>= fun _ => _) _ = _
          rw [hfinal, hnone]
          exact (bind_ok hrun).trans rfl
        · exact fun _ => ⟨d₁.calls, by omega, Nat.lt_succ_self _, rfl⟩
      · have hmissing := moveWithRelated_missing (d := { d with calls := d.calls + 1 }) hs exts
          item.id (freePath d.files planned) hsrc
        refine ⟨_, { d with calls := d.calls + 2 },
          tryCatch_error (e := env.missing item.originalPath) ?_, ?_⟩
        · refine (bind_ok (makeDirs_ok hs hdir)).trans ?_
          exact (bind_ok rfl).trans (bind_error hmissing)
        · exact .of_unchanged (by simp [RenameHistory.fail]) rfl rfl (by simp) rfl

end Rows
/-- The disks after `execute` and after the `rollback` that follows it, with an empty log
in between, where `execute` returns. -/
def executeAndRollback (env env' : Env) (exts exts' : List Path) (operations : List Operation)
    (batch : RenameBatch) (files : FileMap Path β) : Option (Disk β × Disk β) :=
  match execute env exts operations batch { files } with
  | .ok (batch', _) d => some (d, final (rollback env' exts' batch') { d with log := [] })
  | .error _ _ => none

/-- Every move of the rollback takes a file that the execute had moved for the same row
back to where it was, and none that stood at the row's planned target. -/
def MovesOwnFiles (executed rolledBack : Disk β) : Prop :=
  ∀ m ∈ rolledBack.log, (∃ m' ∈ executed.log, Opposite m m') ∧
    ∀ x, (m.tag.item, x) ∈ executed.found → m.file ≠ x

theorem override_status (operations : List Operation) {item : RenameHistory}
    (h : item.status ≠ .success) : (override operations item).status ≠ .success := by
  unfold override
  by_cases hm : item.status ∈ [ItemStatus.matched, .parsed, .needsConfirmation]
  · rw [if_pos hm]
    cases overrideName operations item.originalPath with
    | none => exact h
    | some name =>
        show (if item.status = .needsConfirmation then ItemStatus.parsed else item.status) ≠ _
        split_ifs
        · decide
        · exact h
  · rw [if_neg hm]
    exact h

theorem overridden_status (operations : List Operation) {items : List RenameHistory}
    (h : ∀ item ∈ items, item.status ≠ .success) :
    ∀ item ∈ overridden operations items, item.status ≠ .success := by
  unfold overridden
  split_ifs
  · exact h
  · intro item hi
    obtain ⟨item₀, hi₀, rfl⟩ := List.mem_map.mp hi
    exact override_status operations (h item₀ hi₀)

/-- A loop that returns makes `execute` return, with the rows of the loop. -/
theorem execute_returns {env : Env} {exts : List Path} {operations : List Operation}
    {batch : RenameBatch} {files : FileMap Path β} {items' : List RenameHistory} {d' : Disk β}
    (hstatus : batch.status = .previewing)
    (hrun : forItems (selected operations) (executeItem env exts)
      (overridden operations batch.items) { files, calls := 1 } = .ok items' d') :
    ∃ batch' result, execute env exts operations batch { files } =
        .ok (batch', result) { d' with calls := d'.calls + 1 } ∧
      batch'.items = items' ∧ batch'.status ≠ .rolledBack := by
  let before := overridden operations batch.items
  let total : ℤ :=
    if operations.isEmpty then batch.totalItems
    else (((operationMap operations).map Prod.fst).dedup.length : ℕ)
  let success := tally (selected operations) before items' .success
  let failed := tally (selected operations) before items' .failed
  let skipped := max (total - success - failed) 0
  refine ⟨batch.complete items' success failed skipped (env.now 0) (env.now d'.calls),
    ⟨batch.batchId, total, success, failed, skipped⟩, ?_, rfl, ?_⟩
  · rw [execute, if_pos (by rw [hstatus]; decide)]
    refine (bind_ok (rfl : clock env { files } = .ok (env.now 0) { files, calls := 1 })).trans ?_
    refine (bind_ok hrun).trans ?_
    exact (bind_ok rfl).trans rfl
  · show (if failed = 0 then BatchStatus.completed else .completedWithErrors) ≠ .rolledBack
    split_ifs <;> decide

/-- When every call succeeds and the clock rises, a rollback moves only files that the
execute of the batch had moved, back to their own paths, and no file from a planned
target, for every preview batch and all overrides, if each row is executed with its
target free and a clear way. -/
theorem rollback_moves_own_files {env env' : Env} {exts exts' : List Path}
    {operations : List Operation} {batch : RenameBatch} {files : FileMap Path β}
    (hs : env.Smooth) (hs' : env'.Smooth) (hclock : StrictMono env.now)
    (hexts : exts.Perm smartRelatedExtensions) (hexts' : exts'.Perm smartRelatedExtensions)
    (hbatch : Previewed batch)
    (hready : PartialRun.Along (itemStep (selected operations) (executeItem env exts))
      (fun d item => selected operations item = true → Ready exts item d)
      { files, calls := 1 } (overridden operations batch.items)) :
    ∃ d d', executeAndRollback env env' exts exts' operations batch files = some (d, d') ∧
      MovesOwnFiles d d' := by
  have hext := isExtensions_smart hexts
  have hperm : exts'.Perm exts := hexts'.trans hexts.symm
  have hspec : ∀ (item : RenameHistory) (d : Disk β), item.status ≠ .success →
      (selected operations item = true → Ready exts item d) →
      ∃ item' d₁, (if selected operations item then executeItem env exts item
        else pure item) d = .ok item' d₁ ∧ ItemSpec env (rollbackItem env' exts') item' d d₁ := by
    intro item d hstatus hr
    cases hsel : selected operations item with
    | true => exact executeItem_spec hs hs' hext hperm (hr hsel)
    | false => exact ⟨item, d, rfl, .of_unchanged hstatus rfl rfl le_rfl rfl⟩
  have hstatus : ∀ item ∈ batch.items, item.status ≠ .success := by
    intro item hi h
    have hmem := hbatch.items item hi
    rw [h] at hmem
    exact absurd hmem (by decide)
  obtain ⟨items', d', hrun, hfound, -, -, hsorted, L, hlog, hundo⟩ :=
    forItems_undone hclock hspec (overridden_status operations hstatus) hready
  obtain ⟨batch', result, hexec, hitems, hopen⟩ := execute_returns hbatch.status hrun
  obtain ⟨res, d₃, R, hback, hfiles, hR, hopp⟩ :=
    hundo { d' with calls := d'.calls + 1, log := [] } rfl
  rw [← rollbackOrder_eq_reverse hsorted, ← hitems] at hback
  have hroll : final (rollback env' exts' batch')
      { d' with calls := d'.calls + 1, log := [] } = d₃ := by
    rw [rollback, if_neg hopen]
    exact final_ok ((bind_ok hback).trans rfl)
  refine ⟨{ d' with calls := d'.calls + 1 }, d₃, ?_, fun m hm => ⟨?_, fun x hx => ?_⟩⟩
  · rw [executeAndRollback, hexec]
    exact congrArg (fun d => some (_, d)) hroll
  · rw [hR] at hm
    obtain ⟨m', hm', ho⟩ := hopp m hm
    exact ⟨m', by rw [hlog]; exact hm', ho⟩
  · rw [show d'.found = [] from hfound] at hx
    cases hx

/-- A confirmed row gets the name `b.mkv`. -/
def confirmB : RenameBatch where
  batchId := "batch"
  items := [
    { id := 1
      originalPath := "/m/a.mkv".toList
      newPath := some "/m/x.mkv".toList
      status := .needsConfirmation }]
  totalItems := 1

def nameB : List Operation :=
  [{ originalPath := some "/m/a.mkv".toList, newName := some " b.mkv".toList }]

theorem free_target_moved_back :
    ∃ d d', executeAndRollback smoothEnv smoothEnv smartRelatedExtensions smartRelatedExtensions
      nameB confirmB subtitledOnce = some (d, d') ∧ MovesOwnFiles d d' := by
  refine rollback_moves_own_files (fun _ => rfl) (fun _ => rfl) (fun _ _ h => h)
    (List.Perm.refl _) (List.Perm.refl _) ⟨rfl, by decide⟩
    ⟨fun _ planned hp _ _ => ?_, fun _ _ => trivial⟩
  have hplanned : planned = "/m/b.mkv".toList := by
    have hsome : some planned = some "/m/b.mkv".toList := hp.symm.trans (by decide +kernel)
    exact Option.some.inj hsome
  rw [hplanned]
  decide +kernel

/-- A video and another one at the planned target. -/
def targetTaken : FileMap Path ℕ :=
  [⟨"/m/a.mkv".toList, 1⟩, ⟨"/m/b.mkv".toList, 2⟩].toFinmap

/-- The execute moves file 1 to a numbered path; the rollback moves file 2, which stood
at the planned target, to the original path of file 1. -/
theorem foreign_file_moved :
    ∃ d d', executeAndRollback smoothEnv smoothEnv smartRelatedExtensions smartRelatedExtensions
        nameB confirmB targetTaken = some (d, d') ∧
      d.log = [⟨⟨1, .main⟩, "/m/a.mkv".toList, "/m/b_1.mkv".toList, 1⟩] ∧ d.found = [(1, 2)] ∧
      d'.log = [⟨⟨1, .main⟩, "/m/b.mkv".toList, "/m/a.mkv".toList, 2⟩] ∧ ¬ MovesOwnFiles d d' := by
  have hsome : (executeAndRollback smoothEnv smoothEnv smartRelatedExtensions
      smartRelatedExtensions nameB confirmB targetTaken).isSome = true := by decide +kernel
  have hlogs : (executeAndRollback smoothEnv smoothEnv smartRelatedExtensions
      smartRelatedExtensions nameB confirmB targetTaken).map
        (fun p => (p.1.log, p.1.found, p.2.log)) =
      some ([⟨⟨1, .main⟩, "/m/a.mkv".toList, "/m/b_1.mkv".toList, 1⟩], [(1, 2)],
        [⟨⟨1, .main⟩, "/m/b.mkv".toList, "/m/a.mkv".toList, 2⟩]) := by decide +kernel
  obtain ⟨⟨d, d'⟩, hrun⟩ := Option.isSome_iff_exists.mp hsome
  rw [hrun, Option.map_some, Option.some.injEq, Prod.mk.injEq, Prod.mk.injEq] at hlogs
  obtain ⟨hexec, hfound, hroll⟩ := hlogs
  refine ⟨d, d', hrun, hexec, hfound, hroll, fun h => ?_⟩
  have hmove := (h ⟨⟨1, .main⟩, "/m/b.mkv".toList, "/m/a.mkv".toList, 2⟩ (by rw [hroll]; simp)).2
  exact hmove 2 (by rw [hfound]; simp) rfl

end SmartRenameService

end SmartMedia.Media
