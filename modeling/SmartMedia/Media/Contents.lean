import SmartMedia.Media.Rename

/-!
# What renaming can overwrite

In both services a main file is moved onto a path that was just found free, while its
related files are moved wherever their new names lead. All contents survive an
execute, whatever fails in it, exactly if no related file is moved onto another file.
-/
namespace SmartMedia.Media
open StateProgram

variable {β : Type} {env : Env} {exts : List Path} {item : RenameHistory} {d d' : Disk β}

/-- A related file is not moved onto another file. -/
def SparesOthers (fs : FileMap Path β) (m : FileMap.Move MoveTag Path β) : Prop :=
  m.tag.kind = .related → ¬ FileMap.Overwrites fs m

theorem clock_leads (env : Env) (d : Disk β) : Leads Disk.Extends (clock env) d :=
  .of_same rfl rfl

/-- What the turn of every selected row keeps, the loop keeps. -/
theorem forItems_leads {R : Disk β → Disk β → Prop} (hrefl : ∀ d, R d d)
    (htrans : ∀ a b c, R a b → R b c → R a c) {selected : RenameHistory → Bool}
    {run : RenameHistory → FileM β RenameHistory} (items : List RenameHistory)
    (hrun : ∀ item ∈ items, selected item = true → ∀ d, Leads R (run item) d) (d : Disk β) :
    Leads R (forItems selected run items) d := by
  induction items generalizing d with
  | nil => exact hrefl d
  | cons item rest ih =>
      have hrest : ∀ (item' : RenameHistory) (d₁ : Disk β), Leads R
          (forItems selected run rest >>= fun rest' => pure (item' :: rest')) d₁ := fun item' d₁ =>
        leads_bind htrans (ih (fun i hi => hrun i (List.mem_cons_of_mem _ hi)) d₁)
          fun _ d₂ _ => hrefl d₂
      simp only [forItems]
      cases hsel : selected item with
      | true =>
          exact leads_bind htrans (hrun item List.mem_cons_self hsel d) fun item' d₁ _ =>
            hrest item' d₁
      | false => exact hrest item d

theorem RenameService.executeItem_leads (item : RenameHistory) (d : Disk β) :
    Leads Disk.Extends (RenameService.executeItem env exts item) d := by
  unfold RenameService.executeItem
  cases item.newPath with
  | none => exact .refl d
  | some planned =>
      refine leads_tryCatch Disk.Extends.trans ?_ fun _ d₁ _ => .refl d₁
      refine leads_bind Disk.Extends.trans (makeDirs_leads env _ d) fun _ d₁ _ => ?_
      refine leads_bind Disk.Extends.trans (.refl d₁) fun _ _ h => ?_
      cases h
      refine leads_tryCatch Disk.Extends.trans ?_ fun _ d₂ _ => .refl d₂
      refine leads_bind Disk.Extends.trans (moveWithRelated_leads (freePath_notMem _ _)) ?_
      intro _ d₂ _
      exact leads_bind Disk.Extends.trans (clock_leads env d₂) fun _ d₃ _ => .refl d₃

theorem SmartRenameService.executeItem_leads (item : RenameHistory) (d : Disk β) :
    Leads Disk.Extends (SmartRenameService.executeItem env exts item) d := by
  unfold SmartRenameService.executeItem
  simp only
  split_ifs
  · exact .refl d
  · refine leads_tryCatch Disk.Extends.trans ?_ fun _ d₁ _ => .refl d₁
    refine leads_bind Disk.Extends.trans (makeDirs_leads env _ d) fun _ d₁ _ => ?_
    refine leads_bind Disk.Extends.trans (.refl d₁) fun _ _ h => ?_
    cases h
    refine leads_bind Disk.Extends.trans (moveWithRelated_leads (freePath_notMem _ _)) ?_
    intro _ d₂ _
    refine leads_bind Disk.Extends.trans (.of_same rfl rfl) fun _ d₃ _ => ?_
    exact leads_bind Disk.Extends.trans (clock_leads env d₃) fun _ d₄ _ => .refl d₄

theorem RenameService.execute_leads (batch : RenameBatch) (d : Disk β) :
    Leads Disk.Extends (RenameService.execute env exts batch) d := by
  unfold RenameService.execute
  by_cases hs : batch.status ∈ [BatchStatus.previewing, .pending]
  · rw [if_pos hs]
    refine leads_bind Disk.Extends.trans (clock_leads env d) fun _ d₁ _ => ?_
    refine leads_bind Disk.Extends.trans (forItems_leads .refl Disk.Extends.trans _
      (fun item _ _ => executeItem_leads item) d₁) fun _ d₂ _ => ?_
    exact leads_bind Disk.Extends.trans (clock_leads env d₂) fun _ d₃ _ => .refl d₃
  · rw [if_neg hs]
    exact .refl d

theorem SmartRenameService.execute_leads (operations : List Operation) (batch : RenameBatch)
    (d : Disk β) : Leads Disk.Extends (SmartRenameService.execute env exts operations batch) d := by
  unfold SmartRenameService.execute
  by_cases hs : batch.status ∈ [BatchStatus.previewing, .pending]
  · rw [if_pos hs]
    refine leads_bind Disk.Extends.trans (clock_leads env d) fun _ d₁ _ => ?_
    refine leads_bind Disk.Extends.trans (forItems_leads .refl Disk.Extends.trans _
      (fun item _ _ => executeItem_leads item) d₁) fun _ d₂ _ => ?_
    exact leads_bind Disk.Extends.trans (clock_leads env d₂) fun _ d₃ _ => .refl d₃
  · rw [if_neg hs]
    exact .refl d

/-- Whatever only moves files, and main files onto free paths, keeps all contents
exactly if it spares the files its related moves meet. -/
theorem Disk.Extends.contents_iff {files : FileMap Path β} (h : Disk.Extends { files } d) :
    FileMap.contents files ≤ FileMap.contents d.files ↔
      PartialRun.Along FileMap.step SparesOthers files d.log := by
  obtain ⟨ms, hlog, hexec, halong⟩ := h
  obtain rfl : d.log = ms := hlog
  rw [FileMap.contents_le_iff hexec]
  constructor
  · exact fun h => h.mono fun _ _ hm _ => hm
  · intro h
    refine (PartialRun.along_and.mpr ⟨halong, h⟩).mono fun fs m hm hover => ?_
    cases hk : m.tag.kind with
    | main => exact hm.1.2 hk hover.2
    | related => exact hm.2 hk hover

/-- For every file map, every batch, every operating system and either service: each
content, counted with its multiplicity, is still stored somewhere after `execute`
exactly if no related file was moved onto another file. -/
theorem contents_kept_iff (env : Env) (exts : List Path) (operations : List Operation)
    (batch : RenameBatch) (files : FileMap Path β) :
    (FileMap.contents files ≤
        FileMap.contents (final (RenameService.execute env exts batch) { files }).files ↔
      PartialRun.Along FileMap.step SparesOthers files
        (final (RenameService.execute env exts batch) { files }).log) ∧
    (FileMap.contents files ≤ FileMap.contents
        (final (SmartRenameService.execute env exts operations batch) { files }).files ↔
      PartialRun.Along FileMap.step SparesOthers files
        (final (SmartRenameService.execute env exts operations batch) { files }).log) :=
  ⟨(RenameService.execute_leads batch _).contents_iff,
    (SmartRenameService.execute_leads operations batch _).contents_iff⟩

/-- An operating system in which every call succeeds and the clock counts the calls. -/
def smoothEnv : Env where
  fails _ := none
  missing p := "[Errno 2] No such file or directory: '" ++ String.ofList p ++ "'"
  now n := n

/-- A video with subtitles is renamed to a name that already has subtitles. -/
def subtitled : FileMap Path ℕ :=
  [⟨"/m/a.mkv".toList, 1⟩, ⟨"/m/a.srt".toList, 2⟩, ⟨"/m/b.srt".toList, 3⟩].toFinmap

def renameToB : RenameBatch where
  batchId := "batch"
  items := [
    { id := 1
      originalPath := "/m/a.mkv".toList
      newPath := some "/m/b.mkv".toList
      status := .matched }]
  totalItems := 1

/-- The moved subtitles replace the ones that were there: content 3 is gone. -/
theorem subtitles_overwritten :
    let after := (final (RenameService.execute smoothEnv relatedExtensions renameToB)
      { files := subtitled }).files
    subtitled.lookup "/m/b.srt".toList = some 3 ∧ after.lookup "/m/b.srt".toList = some 2 ∧
      3 ∉ FileMap.contents after ∧
      ¬ FileMap.contents subtitled ≤ FileMap.contents after := by
  decide +kernel

end SmartMedia.Media
