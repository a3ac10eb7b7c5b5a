import SmartMedia.Media.Contents
import SmartMedia.Media.Turns

/-!
# Rows that failed

Main and related files of a row are moved under one exception handler, so the move of a
related file that raises fails the row after its main file is gone. Exactly then a
failed row has not left its main file in place: no other row takes a video that is not
its own, and a main file is moved onto a free path only.
-/
namespace SmartMedia.Media
open StateProgram

variable {β : Type}

/-- The main file can be moved and then the call for some related file is refused. -/
def StopsHalfway (env : Env) (exts : List Path) (src dst : Path) (d : Disk β) : Prop :=
  env.fails d.calls = none ∧ ∃ file, d.files.lookup src = some file ∧
    ∃ k < (sidecars exts (splitext src).1 ((d.files.erase src).insert dst file)).length,
      env.fails (d.calls + 1 + k) ≠ none

/-- So does the row, on the disk at the beginning of its turn. -/
def LateFailure (env : Env) (exts : List Path) (item : RenameHistory) (d : Disk β) : Prop :=
  ∃ planned, item.newPath = some planned ∧ dirname planned ≠ [] ∧ env.fails d.calls = none ∧
    StopsHalfway env exts item.originalPath (freePath d.files planned)
      { d with calls := d.calls + 1 }

section Routine
variable {env : Env} {exts : List Path} {src dst p : Path} {d : Disk β} {item : ℕ}

/-- A path other than the source of the main file loses nothing. -/
theorem moveWithRelated_keeps (hsrc : src ≠ p) (hp : Unrelated exts p) (hfree : dst ∉ d.files) :
    Leads (Keeps p) (moveWithRelated env exts item src dst) d := by
  by_cases h : env.fails d.calls = none ∧ src ∈ d.files
  · obtain ⟨file, hfile⟩ := Finmap.mem_iff.mp h.2
    have hmain := shutilMove_moves ⟨item, .main⟩ dst h.1 hfile
    refine leads_bind (fun _ _ _ => Keeps.trans) ?_ fun _ d₁ _ =>
      (moveRelated_spares hp d₁).keeps
    rw [Leads, final_ok hmain]
    constructor
    · by_cases hsd : src = dst
      · exact .of_same (by rw [relocate, if_pos hsd])
      · refine ⟨[⟨⟨item, .main⟩, src, dst, file⟩], by rw [relocate, if_neg hsd], fun m hm => ?_⟩
        rw [List.mem_singleton.mp hm]
        exact hsrc
    · intro x hx
      have hne : p ≠ dst := fun he => hfree (he ▸ Finmap.mem_of_lookup_eq_some hx)
      show Finmap.lookup p ((d.files.erase src).insert dst file) = _
      rw [Finmap.lookup_insert_of_ne _ hne, Finmap.lookup_erase_ne hsrc.symm]
      exact hx
  · obtain ⟨e, he⟩ := shutilMove_raises ⟨item, .main⟩ dst h
    have hrun : moveWithRelated env exts item src dst d = .error e { d with calls := d.calls + 1 } :=
      bind_error he
    have hsame : Spares p d { d with calls := d.calls + 1 } := .of_same rfl rfl
    rw [Leads, final_error hrun]
    exact hsame.keeps

/-- The three ends of the routine: all files moved, the main file only, or none. -/
theorem moveWithRelated_ends (env : Env) (src : Path) (d : Disk β) (item : ℕ)
    (hext : IsExtensions exts) (hfree : dst ∉ d.files) :
    (¬ StopsHalfway env exts src dst d ∧
        ∃ d', moveWithRelated env exts item src dst d = .ok () d') ∨
      (StopsHalfway env exts src dst d ∧
        ∃ e d', moveWithRelated env exts item src dst d = .error e d' ∧ ¬ Untaken src d d') ∨
      (¬ StopsHalfway env exts src dst d ∧ ∃ e,
        moveWithRelated env exts item src dst d = .error e { d with calls := d.calls + 1 }) := by
  by_cases h : env.fails d.calls = none ∧ src ∈ d.files
  · obtain ⟨file, hfile⟩ := Finmap.mem_iff.mp h.2
    let d₁ : Disk β := relocate ⟨item, .main⟩ src dst file { d with calls := d.calls + 1 }
    have hrun : moveWithRelated env exts item src dst d =
        moveRelated env ⟨item, .related⟩ (splitext src).1 (splitext dst).1 exts d₁ :=
      bind_ok (shutilMove_moves ⟨item, .main⟩ dst h.1 hfile)
    have hne : src ≠ dst := fun he => hfree (he ▸ h.2)
    have hiff : (∃ d', moveRelated env ⟨item, .related⟩ (splitext src).1 (splitext dst).1 exts d₁ =
        .ok () d') ↔ _ := moveRelated_ok_iff hext _ _ d₁
    have hhalf : StopsHalfway env exts src dst d ↔
        ¬ ∃ d', moveRelated env ⟨item, .related⟩ (splitext src).1 (splitext dst).1 exts d₁ =
          .ok () d' := by
      rw [hiff]
      constructor
      · intro hs hall
        obtain ⟨-, file', hfile', k, hk, hfail⟩ := hs
        obtain rfl : file = file' := Option.some.inj (hfile.symm.trans hfile')
        exact hfail (hall k hk)
      · intro hn
        rw [not_forall] at hn
        obtain ⟨k, hk⟩ := hn
        rw [Classical.not_imp] at hk
        exact ⟨h.1, file, hfile, k, hk.1, hk.2⟩
    cases hmove : moveRelated env ⟨item, .related⟩ (splitext src).1 (splitext dst).1 exts d₁ with
    | ok u d' =>
        exact .inl ⟨fun hs => hhalf.mp hs ⟨d', hmove⟩, d', hrun.trans hmove⟩
    | error e d' =>
        refine .inr (.inl ⟨hhalf.mpr fun ⟨d'', hok⟩ => ?_, e, d', hrun.trans hmove, fun hun => ?_⟩)
        · rw [hmove] at hok
          cases hok
        · -- the main move is in the log
          obtain ⟨L, hlog, hL⟩ := hun
          have hleads : Leads Disk.Extends
              (moveRelated env ⟨item, .related⟩ (splitext src).1 (splitext dst).1 exts) d₁ :=
            moveRelated_leads rfl _ _ exts d₁
          rw [Leads, final_error hmove] at hleads
          obtain ⟨ms, hms, -⟩ := hleads
          have hd₁ : d₁.log = d.log ++ [⟨⟨item, .main⟩, src, dst, file⟩] := by
            show (relocate _ src dst file _).log = _
            rw [relocate, if_neg hne]
          rw [hms, hd₁, List.append_assoc] at hlog
          have hmem : (⟨⟨item, .main⟩, src, dst, file⟩ : FileMap.Move MoveTag Path β) ∈ L := by
            rw [← List.append_cancel_left hlog]
            exact List.mem_append_left _ List.mem_cons_self
          exact hL _ hmem rfl
  · obtain ⟨e, he⟩ := shutilMove_raises ⟨item, .main⟩ dst h
    refine .inr (.inr ⟨fun hs => ?_, e, bind_error he⟩)
    obtain ⟨hc, file, hfile, -⟩ := hs
    exact h ⟨hc, Finmap.mem_of_lookup_eq_some hfile⟩

end Routine

/-- What the turn of one row does, where `late` says that it stops halfway. -/
structure Turn (exts : List Path) (late : Prop) (item item' : RenameHistory) (d d₁ : Disk β) :
    Prop where
  path : item'.originalPath = item.originalPath
  others : ∀ p, item.originalPath ≠ p → Unrelated exts p → Keeps p d d₁
  own : item'.status = .failed → ¬ late → Keeps item.originalPath d d₁
  stranded : late → item'.status = .failed ∧ ¬ Untaken item.originalPath d d₁

theorem LateFailure.iff_of_planned (env : Env) (exts : List Path) (d : Disk β)
    {item : RenameHistory} {planned : Path} (h : item.newPath = some planned) :
    LateFailure env exts item d ↔ dirname planned ≠ [] ∧ env.fails d.calls = none ∧
      StopsHalfway env exts item.originalPath (freePath d.files planned)
        { d with calls := d.calls + 1 } := by
  constructor
  · intro hl
    obtain ⟨planned', hplanned, hrest⟩ := hl
    obtain rfl : planned = planned' := Option.some.inj (h.symm.trans hplanned)
    exact hrest
  · exact fun hrest => ⟨planned, h, hrest⟩

section Turns
variable {env : Env} {exts : List Path} {late : Prop} {item item' : RenameHistory}
variable {d d₁ d₂ : Disk β}

theorem Turn.of_unchanged (hpath : item'.originalPath = item.originalPath)
    (hf : d₁.files = d.files) (hl : d₁.log = d.log) (hlate : ¬ late) :
    Turn exts late item item' d d₁ := by
  have hkeeps : ∀ p, Keeps p d d₁ := fun p => (Spares.of_same hf hl).keeps
  exact ⟨hpath, fun p _ _ => hkeeps p, fun _ _ => hkeeps _, fun h => absurd h hlate⟩

/-- A row whose routine began on `d₁`, a call later, and ended on `d₂`. -/
theorem Turn.of_routine {src dst : Path} {id : ℕ} (hsrc : item.originalPath = src)
    (hpath : item'.originalPath = src) (hfree : dst ∉ d.files)
    (hfinal : final (moveWithRelated env exts id src dst) { d with calls := d.calls + 1 } = d₁)
    (hf : d₂.files = d₁.files) (hl : d₂.log = d₁.log)
    (hown : ¬ late → item'.status ≠ .failed)
    (hstranded : late → item'.status = .failed ∧ ¬ Untaken src { d with calls := d.calls + 1 } d₁) :
    Turn exts late item item' d d₂ := by
  subst hsrc
  refine ⟨hpath, fun p hne hp => ?_, fun hs hn => absurd hs (hown hn), fun h => ?_⟩
  · have hroutine : Keeps p { d with calls := d.calls + 1 } d₁ := by
      have hleads : Leads (Keeps p) (moveWithRelated env exts id item.originalPath dst)
          { d with calls := d.calls + 1 } := moveWithRelated_keeps hne hp hfree
      rw [Leads, hfinal] at hleads
      exact hleads
    have hbegin : Spares p d { d with calls := d.calls + 1 } := .of_same rfl rfl
    exact (hbegin.keeps.trans hroutine).trans (Spares.of_same hf hl).keeps
  · obtain ⟨hfailed, htaken⟩ := hstranded h
    refine ⟨hfailed, fun hun => htaken ?_⟩
    obtain ⟨L, hlog, hL⟩ := hun
    exact ⟨L, hl.symm.trans hlog, hL⟩

theorem RenameService.executeItem_turn (hext : IsExtensions exts)
    (h : RenameService.executeItem env exts item d = .ok item' d₁) :
    Turn exts (LateFailure env exts item d) item item' d d₁ := by
  cases hnew : item.newPath with
  | none =>
      rw [RenameService.executeItem, hnew] at h
      cases h
      refine .of_unchanged rfl rfl rfl fun hlate => ?_
      obtain ⟨planned, hplanned, -⟩ := hlate
      rw [hnew] at hplanned
      cases hplanned
  | some planned =>
      have hlate := LateFailure.iff_of_planned env exts d hnew
      rcases makeDirs_ends env (dirname planned) d with
        ⟨hnot, e, d', hmake, hfiles, hlog⟩ | ⟨hmade, hmake⟩
      · rw [RenameService.executeItem, hnew] at h
        cases h.symm.trans (tryCatch_error (bind_error hmake))
        exact .of_unchanged rfl hfiles hlog fun hl => hnot ⟨(hlate.mp hl).1, (hlate.mp hl).2.1⟩
      · have hfree := freePath_notMem d.files planned
        let final := freePath d.files planned
        rcases moveWithRelated_ends env item.originalPath { d with calls := d.calls + 1 }
            item.id hext hfree with
          ⟨hnot, d₂, hrun⟩ | ⟨hhalf, e, d₂, hrun, htaken⟩ | ⟨hnot, e, hrun⟩
        · have hend : RenameService.executeItem env exts item d =
              .ok { item with
                newPath := some final
                status := .success
                executedAt := some (env.now d₂.calls) } { d₂ with calls := d₂.calls + 1 } := by
            rw [RenameService.executeItem, hnew]
            refine tryCatch_ok ((bind_ok hmake).trans ?_)
            exact tryCatch_ok ((bind_ok hrun).trans rfl)
          cases h.symm.trans hend
          refine .of_routine rfl rfl hfree (final_ok hrun) rfl rfl (fun _ => by simp) fun hl => ?_
          exact absurd (hlate.mp hl).2.2 hnot
        · have hend : RenameService.executeItem env exts item d =
              .ok (RenameHistory.fail { item with newPath := some final } e) d₂ := by
            rw [RenameService.executeItem, hnew]
            refine tryCatch_ok ((bind_ok hmake).trans ?_)
            exact tryCatch_error (bind_error hrun)
          cases h.symm.trans hend
          refine .of_routine rfl rfl hfree (final_error hrun) rfl rfl (fun hn => ?_) fun _ => ?_
          · exact absurd (hlate.mpr ⟨hmade.1, hmade.2, hhalf⟩) hn
          · exact ⟨rfl, htaken⟩
        · have hend : RenameService.executeItem env exts item d =
              .ok (RenameHistory.fail { item with newPath := some final } e)
                { d with calls := d.calls + 2 } := by
            rw [RenameService.executeItem, hnew]
            refine tryCatch_ok ((bind_ok hmake).trans ?_)
            exact tryCatch_error (bind_error hrun)
          cases h.symm.trans hend
          exact .of_unchanged rfl rfl rfl fun hl => hnot (hlate.mp hl).2.2

theorem SmartRenameService.executeItem_turn (hext : IsExtensions exts)
    (h : SmartRenameService.executeItem env exts item d = .ok item' d₁) :
    Turn exts (LateFailure env exts item d) item item' d d₁ := by
  by_cases hempty : item.newPath.getD [] = []
  · simp only [SmartRenameService.executeItem, if_pos hempty] at h
    cases h
    refine .of_unchanged rfl rfl rfl fun hlate => ?_
    obtain ⟨planned, hplanned, hdir, -⟩ := hlate
    rw [hplanned, Option.getD_some] at hempty
    exact hdir (by rw [hempty]; rfl)
  · obtain ⟨planned, hnew⟩ : ∃ planned, item.newPath = some planned := by
      cases hn : item.newPath with
      | none => exact absurd (by rw [hn]; rfl) hempty
      | some planned => exact ⟨planned, rfl⟩
    rw [hnew, Option.getD_some] at hempty
    have hlate := LateFailure.iff_of_planned env exts d hnew
    rcases makeDirs_ends env (dirname planned) d with
      ⟨hnot, e, d', hmake, hfiles, hlog⟩ | ⟨hmade, hmake⟩
    · simp only [SmartRenameService.executeItem, hnew, Option.getD_some, if_neg hempty] at h
      cases h.symm.trans (tryCatch_error (bind_error hmake))
      exact .of_unchanged rfl hfiles hlog fun hl => hnot ⟨(hlate.mp hl).1, (hlate.mp hl).2.1⟩
    · have hfree := freePath_notMem d.files planned
      rcases moveWithRelated_ends env item.originalPath { d with calls := d.calls + 1 }
          item.id hext hfree with
        ⟨hnot, d₂, hrun⟩ | ⟨hhalf, e, d₂, hrun, htaken⟩ | ⟨hnot, e, hrun⟩
      · have hend : SmartRenameService.executeItem env exts item d =
            .ok { item with
              status := .success
              executedAt := some (env.now d₂.calls) }
              { d₂ with
                calls := d₂.calls + 1
                found := (d.files.lookup planned).toList.map (Prod.mk item.id) ++ d₂.found } := by
          simp only [SmartRenameService.executeItem, hnew, Option.getD_some, if_neg hempty]
          refine tryCatch_ok ((bind_ok hmake).trans ?_)
          refine (bind_ok rfl).trans ((bind_ok hrun).trans ?_)
          rw [hnew]
          rfl
        cases h.symm.trans hend
        refine .of_routine rfl rfl hfree (final_ok hrun) rfl rfl (fun _ => by simp) fun hl => ?_
        exact absurd (hlate.mp hl).2.2 hnot
      · have hend : SmartRenameService.executeItem env exts item d = .ok (item.fail e) d₂ := by
          simp only [SmartRenameService.executeItem, hnew, Option.getD_some, if_neg hempty]
          refine tryCatch_error ((bind_ok hmake).trans ?_)
          exact (bind_ok rfl).trans (bind_error hrun)
        cases h.symm.trans hend
        refine .of_routine rfl rfl hfree (final_error hrun) rfl rfl (fun hn => ?_) fun _ => ?_
        · exact absurd (hlate.mpr ⟨hmade.1, hmade.2, hhalf⟩) hn
        · exact ⟨rfl, htaken⟩
      · have hend : SmartRenameService.executeItem env exts item d =
            .ok (item.fail e) { d with calls := d.calls + 2 } := by
          simp only [SmartRenameService.executeItem, hnew, Option.getD_some, if_neg hempty]
          refine tryCatch_error ((bind_ok hmake).trans ?_)
          exact (bind_ok rfl).trans (bind_error hrun)
        cases h.symm.trans hend
        exact .of_unchanged rfl rfl rfl fun hl => hnot (hlate.mp hl).2.2

/-- Whether selected or not, a row has its turn. -/
theorem Turn.of_step {selected : RenameHistory → Bool}
    {run : RenameHistory → FileM β RenameHistory} {late : RenameHistory → Disk β → Prop}
    (hturn : ∀ item d item' d₁, run item d = .ok item' d₁ →
      Turn exts (late item d) item item' d d₁)
    (h : (if selected item then run item else pure item) d = .ok item' d₁) :
    Turn exts (selected item = true ∧ late item d) item item' d d₁ := by
  cases hsel : selected item with
  | true =>
      rw [hsel, if_pos rfl] at h
      obtain ⟨hpath, hothers, hown, hstranded⟩ := hturn item d item' d₁ h
      exact ⟨hpath, hothers, fun hf hn => hown hf fun hl => hn ⟨rfl, hl⟩,
        fun hl => hstranded hl.2⟩
  | false =>
      rw [hsel, if_neg (by simp)] at h
      cases h
      exact .of_unchanged rfl rfl rfl (by simp)

end Turns

section Loop
variable {exts : List Path} {selected : RenameHistory → Bool}
variable {run : RenameHistory → FileM β RenameHistory} {late : RenameHistory → Disk β → Prop}
variable {items items' : List RenameHistory} {d d' : Disk β} {p : Path}

theorem itemStep_of_ok {item item' : RenameHistory} {d₁ : Disk β}
    (h : (if selected item then run item else pure item) d = .ok item' d₁) :
    itemStep selected run d item = some d₁ := congrArg some (final_ok h)

/-- The loop keeps what is at a path of none of its rows. -/
theorem forItems_keeps (hturn : ∀ item d item' d₁, run item d = .ok item' d₁ →
      Turn exts (late item d) item item' d d₁)
    (hnot : ∀ item ∈ items, item.originalPath ≠ p) (hp : Unrelated exts p)
    (h : forItems selected run items d = .ok items' d') : Keeps p d d' := by
  induction items generalizing d items' with
  | nil =>
      cases h
      exact .refl _
  | cons item rest ih =>
      obtain ⟨item', d₁, rest', hrun, hrest, rfl⟩ := forItems_cons_iff.mp h
      have hhead := (Turn.of_step hturn hrun).others p (hnot item List.mem_cons_self) hp
      exact hhead.trans (ih (fun i hi => hnot i (List.mem_cons_of_mem _ hi)) hrest)

theorem forItems_paths (hturn : ∀ item d item' d₁, run item d = .ok item' d₁ →
      Turn exts (late item d) item item' d d₁)
    (h : forItems selected run items d = .ok items' d') :
    items'.map (·.originalPath) = items.map (·.originalPath) := by
  induction items generalizing d items' with
  | nil =>
      cases h
      rfl
  | cons item rest ih =>
      obtain ⟨item', d₁, rest', hrun, hrest, rfl⟩ := forItems_cons_iff.mp h
      rw [List.map_cons, List.map_cons, ih hrest, (Turn.of_step hturn hrun).path]

/-- If no row stops halfway, the failed rows have kept their main files. -/
theorem forItems_failed_keep (hturn : ∀ item d item' d₁, run item d = .ok item' d₁ →
      Turn exts (late item d) item item' d d₁)
    (honce : (items.map (·.originalPath)).Nodup)
    (hvideos : ∀ item ∈ items, Unrelated exts item.originalPath)
    (h : forItems selected run items d = .ok items' d')
    (halong : PartialRun.Along (itemStep selected run)
      (fun d item => selected item = true → ¬ late item d) d items) :
    ∀ item' ∈ items', item'.status = .failed → Keeps item'.originalPath d d' := by
  induction items generalizing d items' with
  | nil =>
      cases h
      exact fun _ hi => (by cases hi)
  | cons item rest ih =>
      obtain ⟨item', d₁, rest', hrun, hrest, rfl⟩ := forItems_cons_iff.mp h
      obtain ⟨hnew, honce'⟩ := List.nodup_cons.mp honce
      have hturn₁ := Turn.of_step hturn hrun
      have hvideos' : ∀ i ∈ rest, Unrelated exts i.originalPath := fun i hi =>
        hvideos i (List.mem_cons_of_mem _ hi)
      intro i hi hfailed
      rcases List.mem_cons.mp hi with rfl | hi
      · have hown : Keeps item.originalPath d d₁ :=
          hturn₁.own hfailed fun hl => halong.1 hl.1 hl.2
        have hafter : Keeps item.originalPath d₁ d' := by
          refine forItems_keeps hturn (fun j hj he => hnew ?_) (hvideos _ List.mem_cons_self) hrest
          exact List.mem_map.mpr ⟨j, hj, he⟩
        rw [hturn₁.path]
        exact hown.trans hafter
      · have hpath : i.originalPath ∈ rest.map (·.originalPath) := by
          rw [← forItems_paths hturn hrest]
          exact List.mem_map_of_mem hi
        obtain ⟨j, hj, he⟩ := List.mem_map.mp hpath
        have hbefore : Keeps i.originalPath d d₁ := by
          refine hturn₁.others _ (fun hne => hnew (List.mem_map.mpr ⟨j, hj, he.trans hne.symm⟩)) ?_
          rw [← he]
          exact hvideos' j hj
        have hlast := ih honce' hvideos' hrest (halong.2 d₁ (itemStep_of_ok hrun)) i hi hfailed
        exact hbefore.trans hlast

/-- A row that stops halfway is a failed one whose main file was taken away. -/
theorem forItems_failed_untaken (hturn : ∀ item d item' d₁, run item d = .ok item' d₁ →
      Turn exts (late item d) item item' d d₁)
    (hleads : ∀ item d, Leads Disk.Extends (run item) d)
    (h : forItems selected run items d = .ok items' d')
    (huntaken : ∀ item' ∈ items', item'.status = .failed → Untaken item'.originalPath d d') :
    PartialRun.Along (itemStep selected run)
      (fun d item => selected item = true → ¬ late item d) d items := by
  induction items generalizing d items' with
  | nil => trivial
  | cons item rest ih =>
      obtain ⟨item', d₁, rest', hrun, hrest, rfl⟩ := forItems_cons_iff.mp h
      have hturn₁ := Turn.of_step hturn hrun
      have hfirst : d.Extends d₁ := by
        cases hsel : selected item with
        | true =>
            rw [hsel, if_pos rfl] at hrun
            have hl := hleads item d
            rwa [Leads, final_ok hrun] at hl
        | false =>
            rw [hsel, if_neg (by simp)] at hrun
            cases hrun
            exact .refl d
      have hlast : d₁.Extends d' := by
        have hl : Leads Disk.Extends (forItems selected run rest) d₁ :=
          forItems_leads .refl Disk.Extends.trans rest (fun item _ _ => hleads item) d₁
        rwa [Leads, final_ok hrest] at hl
      refine ⟨fun hsel hl => ?_, fun u hu => ?_⟩
      · obtain ⟨hfailed, htaken⟩ := hturn₁.stranded ⟨hsel, hl⟩
        have hun := huntaken item' List.mem_cons_self hfailed
        rw [hturn₁.path] at hun
        exact htaken (hun.split hfirst hlast).1
      · rw [itemStep_of_ok hrun] at hu
        cases hu
        refine ih hrest fun i hi hfailed => ?_
        exact ((huntaken i (List.mem_cons_of_mem _ hi) hfailed).split hfirst hlast).2

end Loop

/-- A run of the loop from the first call of `execute` on. -/
theorem forItems_failed_iff {exts : List Path} {selected : RenameHistory → Bool}
    {run : RenameHistory → FileM β RenameHistory} {late : RenameHistory → Disk β → Prop}
    {items items' : List RenameHistory} {files : FileMap Path β} {d₁ d' : Disk β}
    (hturn : ∀ item d item' d₁, run item d = .ok item' d₁ →
      Turn exts (late item d) item item' d d₁)
    (hleads : ∀ item d, Leads Disk.Extends (run item) d)
    (honce : (items.map (·.originalPath)).Nodup)
    (hvideos : ∀ item ∈ items, Unrelated exts item.originalPath)
    (h : forItems selected run items { files, calls := 1 } = .ok items' d₁)
    (hf : d'.files = d₁.files) (hl : d'.log = d₁.log) :
    (∀ item ∈ items', item.status = .failed → Keeps item.originalPath { files } d') ↔
      PartialRun.Along (itemStep selected run)
        (fun d item => selected item = true → ¬ late item d) { files, calls := 1 } items := by
  have hlast : ∀ p, Untaken p { files } d' ↔ Untaken p { files, calls := 1 } d₁ := by
    intro p
    rw [Untaken, Untaken, hl]
  constructor
  · intro hkeeps
    refine forItems_failed_untaken hturn hleads h fun i hi hfailed => ?_
    exact (hlast _).mp (hkeeps i hi hfailed).untaken
  · intro halong i hi hfailed
    obtain ⟨huntaken, hfile⟩ := forItems_failed_keep hturn honce hvideos h halong i hi hfailed
    refine ⟨(hlast _).mpr huntaken, fun x hx => ?_⟩
    rw [hf]
    exact hfile x hx

theorem RenameService.execute_eq_ok {env : Env} {exts : List Path} {batch batch' : RenameBatch}
    {result : RenameExecuteResult} {files : FileMap Path β} {d' : Disk β}
    (h : execute env exts batch { files } = .ok (batch', result) d') :
    ∃ d₁, forItems selected (executeItem env exts) batch.items { files, calls := 1 } =
      .ok batch'.items d₁ ∧ d'.files = d₁.files ∧ d'.log = d₁.log := by
  by_cases hs : batch.status ∈ [BatchStatus.previewing, .pending]
  · rw [execute, if_pos hs] at h
    obtain ⟨started, d₀, hclock, h⟩ := bind_eq_ok.mp h
    cases hclock
    obtain ⟨items, d₁, hloop, h⟩ := bind_eq_ok.mp h
    cases h
    exact ⟨d₁, hloop, rfl, rfl⟩
  · rw [execute, if_neg hs] at h
    cases h

theorem SmartRenameService.execute_eq_ok {env : Env} {exts : List Path}
    {operations : List Operation} {batch batch' : RenameBatch} {result : RenameExecuteResult}
    {files : FileMap Path β} {d' : Disk β}
    (h : execute env exts operations batch { files } = .ok (batch', result) d') :
    ∃ d₁, forItems (selected operations) (executeItem env exts)
        (overridden operations batch.items) { files, calls := 1 } = .ok batch'.items d₁ ∧
      d'.files = d₁.files ∧ d'.log = d₁.log := by
  by_cases hs : batch.status ∈ [BatchStatus.previewing, .pending]
  · rw [execute, if_pos hs] at h
    obtain ⟨started, d₀, hclock, h⟩ := bind_eq_ok.mp h
    cases hclock
    obtain ⟨items, d₁, hloop, h⟩ := bind_eq_ok.mp h
    cases h
    exact ⟨d₁, hloop, rfl, rfl⟩
  · rw [execute, if_neg hs] at h
    cases h

/-- An override changes the target of a row, not its original path. -/
theorem SmartRenameService.override_path (operations : List Operation) (item : RenameHistory) :
    (override operations item).originalPath = item.originalPath := by
  by_cases hs : item.status ∈ [ItemStatus.matched, ItemStatus.parsed, ItemStatus.needsConfirmation]
  · rw [override, if_pos hs]
    cases overrideName operations item.originalPath <;> rfl
  · rw [override, if_neg hs]

theorem SmartRenameService.overridden_scanned (operations : List Operation)
    {items : List RenameHistory} (h : Scanned items) : Scanned (overridden operations items) := by
  unfold overridden
  split_ifs
  · exact h
  · obtain ⟨honce, hvideos⟩ := h
    constructor
    · rw [List.map_map]
      have hsame : ((·.originalPath) ∘ override operations : RenameHistory → Path) =
          (·.originalPath) := funext fun item => override_path operations item
      rw [hsame]
      exact honce
    · intro item hi
      obtain ⟨item₀, hi₀, rfl⟩ := List.mem_map.mp hi
      rw [override_path]
      exact hvideos item₀ hi₀

/-- For every operating system, all contents and the rows of a scan, in both services:
every row whose stored status is `failed` after `execute` has its main file in place,
never moved and with its content, exactly if no row had its main file moved and then
the call for a related file refused. -/
theorem failed_in_place_iff {env : Env} {exts exts' : List Path} {batch : RenameBatch}
    {files : FileMap Path β} (operations : List Operation) (hexts : exts.Perm relatedExtensions)
    (hexts' : exts'.Perm smartRelatedExtensions) (hscan : Scanned batch.items) :
    (∀ batch' result d', RenameService.execute env exts batch { files } =
        .ok (batch', result) d' →
      ((∀ item ∈ batch'.items, item.status = .failed →
          Keeps item.originalPath { files } d') ↔
        PartialRun.Along (itemStep RenameService.selected (RenameService.executeItem env exts))
          (fun d item => RenameService.selected item = true → ¬ LateFailure env exts item d)
          { files, calls := 1 } batch.items)) ∧
    ∀ batch' result d', SmartRenameService.execute env exts' operations batch { files } =
        .ok (batch', result) d' →
      ((∀ item ∈ batch'.items, item.status = .failed →
          Keeps item.originalPath { files } d') ↔
        PartialRun.Along (itemStep (SmartRenameService.selected operations)
            (SmartRenameService.executeItem env exts'))
          (fun d item => SmartRenameService.selected operations item = true →
            ¬ LateFailure env exts' item d)
          { files, calls := 1 } (SmartRenameService.overridden operations batch.items)) := by
  refine ⟨fun batch' result d' h => ?_, fun batch' result d' h => ?_⟩
  · obtain ⟨d₁, hloop, hf, hl⟩ := RenameService.execute_eq_ok h
    have hvideos : ∀ item ∈ batch.items, Unrelated exts item.originalPath := fun item hi =>
      (hscan.videos item hi).perm hexts
    exact forItems_failed_iff
      (fun _ _ _ _ => RenameService.executeItem_turn (isExtensions_related hexts))
      RenameService.executeItem_leads hscan.once hvideos hloop hf hl
  · obtain ⟨d₁, hloop, hf, hl⟩ := SmartRenameService.execute_eq_ok h
    have hscan' := SmartRenameService.overridden_scanned operations hscan
    have hvideos : ∀ item ∈ SmartRenameService.overridden operations batch.items,
        Unrelated exts' item.originalPath := fun item hi =>
      (hscan'.videos item hi).smart.perm hexts'
    exact forItems_failed_iff
      (fun _ _ _ _ => SmartRenameService.executeItem_turn (isExtensions_smart hexts'))
      SmartRenameService.executeItem_leads hscan'.once hvideos hloop hf hl

/-- An operating system that refuses one call. -/
def refusing (n : ℕ) : Env :=
  { smoothEnv with fails := fun k => if k = n then some "[Errno 28] No space left" else none }

theorem renameToB_scanned : Scanned renameToB.items :=
  ⟨by decide, by
    intro item hi ext he
    rw [List.mem_singleton.mp hi]
    revert ext
    decide⟩

/-- The move of the main file is refused: the row fails and the file stays. -/
theorem refused_main_in_place : ∃ batch' result d',
    RenameService.execute (refusing 2) relatedExtensions renameToB { files := subtitledOnce } =
      .ok (batch', result) d' ∧ batch'.items.map (·.status) = [.failed] ∧
    ∀ item ∈ batch'.items, item.status = .failed →
      Keeps item.originalPath { files := subtitledOnce } d' := by
  have hstatus : (match RenameService.execute (refusing 2) relatedExtensions renameToB
      { files := subtitledOnce } with
    | .ok (batch', _) _ => some (batch'.items.map (·.status))
    | .error _ _ => none) = some [.failed] := by decide +kernel
  cases hrun : RenameService.execute (refusing 2) relatedExtensions renameToB
      { files := subtitledOnce } with
  | error e d' =>
      rw [hrun] at hstatus
      cases hstatus
  | ok res d' =>
      rw [hrun] at hstatus
      refine ⟨res.1, res.2, d', rfl, Option.some.inj hstatus, ?_⟩
      refine ((failed_in_place_iff [] (.refl _) (.refl _) renameToB_scanned).1 res.1 res.2 d'
        hrun).mpr ⟨fun _ hlate => ?_, fun _ _ => trivial⟩
      obtain ⟨planned, -, -, -, hmain, -⟩ := hlate
      exact absurd hmain (by decide)

/-- The move of the subtitles is refused: the row is reported failed, its video is at the
new path, in both services. -/
theorem failed_row_moved :
    (∃ batch' result d', RenameService.execute (refusing 3) relatedExtensions renameToB
        { files := subtitledOnce } = .ok (batch', result) d' ∧
      ∃ item ∈ batch'.items, item.status = .failed ∧
        subtitledOnce.lookup item.originalPath = some 1 ∧
        d'.files.lookup item.originalPath = none ∧
        d'.files.lookup "/m/b.mkv".toList = some 1) ∧
    ∃ batch' result d', SmartRenameService.execute (refusing 3) smartRelatedExtensions []
        renameToB { files := subtitledOnce } = .ok (batch', result) d' ∧
      ∃ item ∈ batch'.items, item.status = .failed ∧
        subtitledOnce.lookup item.originalPath = some 1 ∧
        d'.files.lookup item.originalPath = none ∧
        d'.files.lookup "/m/b.mkv".toList = some 1 := by
  have hrows : ∀ result : EStateM.Result String (Disk ℕ) (RenameBatch × RenameExecuteResult),
      (match result with
        | .ok (batch', _) d' => decide (∃ item ∈ batch'.items, item.status = .failed ∧
            subtitledOnce.lookup item.originalPath = some 1 ∧
            d'.files.lookup item.originalPath = none ∧
            d'.files.lookup "/m/b.mkv".toList = some 1)
        | .error _ _ => false) = true →
      ∃ batch' r d', result = .ok (batch', r) d' ∧
        ∃ item ∈ batch'.items, item.status = .failed ∧
          subtitledOnce.lookup item.originalPath = some 1 ∧
          d'.files.lookup item.originalPath = none ∧
          d'.files.lookup "/m/b.mkv".toList = some 1 := by
    intro result h
    cases result with
    | error e d' => cases h
    | ok res d' => exact ⟨res.1, res.2, d', rfl, of_decide_eq_true h⟩
  exact ⟨hrows _ (by decide +kernel), hrows _ (by decide +kernel)⟩

end SmartMedia.Media
