import SmartMedia.Media.SmartRollback
import SmartMedia.Media.Turns

/-!
# Batches that count as rolled back

`rollback` marks its batch whatever became of the rows, and then refuses to be called
again. The mark is true exactly if each row, at its turn, is back already or can be
moved back, from its stored path and without taking the file of a row that is back.
-/
namespace SmartMedia.Media
open StateProgram

variable {β : Type}

/-- The files of the rows `execute` renamed, by the rows' ids, are at their original
paths. Some of these rows may have been rolled back before. -/
def AllBack (file : ℕ → β) (items : List RenameHistory) (files : FileMap Path β) : Prop :=
  ∀ item ∈ items, item.status ∈ [ItemStatus.success, .rolledBack] →
    files.lookup item.originalPath = some (file item.id)

/-- Where `rollback` looks for the renamed file. -/
def RenameService.storedPath (item : RenameHistory) : Option Path := item.newPath

def SmartRenameService.storedPath (item : RenameHistory) : Option Path :=
  item.newPath.filter (· ≠ [])

section Rows
variable {stored : RenameHistory → Option Path} {env : Env} {exts : List Path}
variable {item item' : RenameHistory} {d d₁ d' : Disk β} {file : ℕ → β} {p : Path}

/-- At the row's turn what stands at `p` is moved to its original path. -/
structure MovesBack (stored : RenameHistory → Option Path) (env : Env) (item : RenameHistory)
    (d : Disk β) (p : Path) : Prop where
  stored : stored item = some p
  there : p ∈ d.files
  directory : dirname item.originalPath ≠ []
  made : env.fails d.calls = none
  free : item.originalPath ∉ d.files
  moved : env.fails (d.calls + 1) = none

/-- At its turn the row is back, or its file is moved back and it is not the file of one
of the rows `done`, which are back. -/
def Restores (stored : RenameHistory → Option Path) (env : Env) (file : ℕ → β)
    (done : List RenameHistory) (item : RenameHistory) (d : Disk β) : Prop :=
  d.files.lookup item.originalPath = some (file item.id) ∨
    ∃ p, MovesBack stored env item d p ∧ d.files.lookup p = some (file item.id) ∧
      ∀ i ∈ done, i.originalPath ≠ p

/-- A row of the rollback loop, on the rows done before and the disk. -/
def rollStep (run : RenameHistory → FileM β RenameHistory)
    (s : List RenameHistory × Disk β) (item : RenameHistory) :
    Option (List RenameHistory × Disk β) :=
  some (item :: s.1, final (run item) s.2)

/-- What a row's rollback does to the paths without a related extension. -/
structure RollTurn (stored : RenameHistory → Option Path) (env : Env) (exts : List Path)
    (item : RenameHistory) (d d₁ : Disk β) : Prop where
  still : (∀ p, ¬ MovesBack stored env item d p) → d₁.files = d.files
  back : ∀ p q, MovesBack stored env item d p → Unrelated exts q →
    d₁.files.lookup q = if q = item.originalPath then d.files.lookup p
      else if q = p then none else d.files.lookup q

theorem RollTurn.of_still (hf : d₁.files = d.files)
    (h : ∀ p, ¬ MovesBack stored env item d p) : RollTurn stored env exts item d d₁ :=
  ⟨fun _ => hf, fun p _ hp => absurd hp (h p)⟩

/-- The routine moves the main file whatever becomes of the related files. -/
theorem RollTurn.of_routine {src : Path} (id : ℕ) (hp : MovesBack stored env item d src)
    (hf : d₁.files = (final (moveWithRelated env exts id src item.originalPath)
      { d with calls := d.calls + 1 }).files) : RollTurn stored env exts item d d₁ := by
  refine ⟨fun h => absurd hp (h src), fun p q hp' hq => ?_⟩
  obtain rfl : src = p := Option.some.inj (hp.stored.symm.trans hp'.stored)
  obtain ⟨file, hfile⟩ := Finmap.mem_iff.mp hp.there
  have hne : item.originalPath ≠ src := fun he => hp.free (he ▸ hp.there)
  let d₂ : Disk β := relocate ⟨id, .main⟩ src item.originalPath file { d with calls := d.calls + 2 }
  have hrun : moveWithRelated env exts id src item.originalPath { d with calls := d.calls + 1 } =
      moveRelated env ⟨id, .related⟩ (splitext src).1 (splitext item.originalPath).1 exts d₂ :=
    bind_ok (shutilMove_moves (d := { d with calls := d.calls + 1 }) _ _ hp.moved hfile)
  have hrest : (final (moveWithRelated env exts id src item.originalPath)
      { d with calls := d.calls + 1 }).files.lookup q = d₂.files.lookup q := by
    have hspares : Leads (Spares q) (moveRelated env ⟨id, .related⟩ (splitext src).1
        (splitext item.originalPath).1 exts) d₂ := moveRelated_spares hq d₂
    rw [final, hrun, ← final]
    exact hspares.file
  rw [hf, hrest]
  show Finmap.lookup q ((d.files.erase src).insert item.originalPath file) = _
  by_cases hq₁ : q = item.originalPath
  · rw [hq₁, Finmap.lookup_insert, if_pos rfl, hfile]
  · rw [Finmap.lookup_insert_of_ne _ hq₁, if_neg hq₁]
    by_cases hq₂ : q = src
    · rw [hq₂, Finmap.lookup_erase, if_pos rfl]
    · rw [Finmap.lookup_erase_ne hq₂, if_neg hq₂]

/-- The common part of both services: the directory, the check of the original path, the
moves and the date. -/
theorem RollTurn.of_body {occupied : RenameHistory} {back : Time → RenameHistory}
    (hstored : stored item = some p) (hp : p ∈ d.files) :
    RollTurn stored env exts item d (final (do
      makeDirs env (dirname item.originalPath)
      let there ← pathExists item.originalPath
      if there then pure occupied
      else do
        moveWithRelated env exts item.id p item.originalPath
        let now ← clock env
        pure (back now)) d) := by
  rcases makeDirs_ends env (dirname item.originalPath) d with
    ⟨hnot, e, d', hmake, hfiles, -⟩ | ⟨hmade, hmake⟩
  · rw [final_error (bind_error hmake)]
    exact .of_still hfiles fun _ h => hnot ⟨h.directory, h.made⟩
  · rw [final, bind_ok hmake, ← final]
    by_cases hfree : item.originalPath ∈ d.files
    · have hthere : pathExists item.originalPath { d with calls := d.calls + 1 } =
          .ok true { d with calls := d.calls + 1 } := pathExists_true hfree
      rw [final, bind_ok hthere]
      exact .of_still rfl fun _ h => h.free hfree
    · have hthere : pathExists item.originalPath { d with calls := d.calls + 1 } =
          .ok false { d with calls := d.calls + 1 } := pathExists_false hfree
      rw [final, bind_ok hthere, ← final, if_neg (by simp)]
      cases hm : env.fails (d.calls + 1) with
      | some e =>
          have hmove : moveWithRelated env exts item.id p item.originalPath
              { d with calls := d.calls + 1 } = .error e { d with calls := d.calls + 2 } :=
            bind_error (bind_error (osCall_some hm))
          rw [final_error (bind_error hmove)]
          refine .of_still rfl fun _ h => ?_
          have hmoved := h.moved
          rw [hm] at hmoved
          cases hmoved
      | none =>
          refine .of_routine item.id ⟨hstored, hp, hmade.1, hmade.2, hfree, hm⟩ ?_
          cases hrun : moveWithRelated env exts item.id p item.originalPath
              { d with calls := d.calls + 1 } with
          | ok u d₂ =>
              rw [final_ok hrun, final, bind_ok hrun]
              rfl
          | error e d₂ =>
              rw [final_error hrun, final_error (bind_error hrun)]

theorem final_tryCatch_pure (m : FileM β RenameHistory) (h : String → RenameHistory)
    (d : Disk β) : final (tryCatch m fun e => pure (h e)) d = final m d := by
  cases hm : m d with
  | ok a d₁ => rw [final_ok (tryCatch_ok hm), final_ok hm]
  | error e d₁ =>
      rw [final, tryCatch_error hm, final_error hm]
      rfl

theorem RenameService.rollbackItem_turn (item : RenameHistory) (d : Disk β) :
    RollTurn storedPath env exts item d (final (rollbackItem env exts item) d) := by
  cases hnew : item.newPath with
  | none =>
      refine .of_still ?_ fun p h => ?_
      · rw [rollbackItem, hnew]
        rfl
      · have hstored : item.newPath = some p := h.stored
        rw [hnew] at hstored
        cases hstored
  | some p =>
      rw [rollbackItem, hnew]
      simp only [final_tryCatch_pure]
      by_cases hp : p ∈ d.files
      · rw [final, bind_ok (pathExists_true hp), if_pos rfl, ← final]
        exact .of_body hnew hp
      · rw [final, bind_ok (pathExists_false hp), if_neg (by simp)]
        refine .of_still rfl fun q h => ?_
        obtain rfl : p = q := Option.some.inj (hnew.symm.trans h.stored)
        exact hp h.there

theorem SmartRenameService.rollbackItem_turn (item : RenameHistory) (d : Disk β) :
    RollTurn storedPath env exts item d (final (rollbackItem env exts item) d) := by
  simp only [rollbackItem, final_tryCatch_pure]
  by_cases hp : item.newPath.getD [] ∈ d.files
  · rw [final, bind_ok (pathExists_true hp), ← final]
    by_cases hne : item.newPath.getD [] = []
    · rw [if_neg (fun h => h.1 hne)]
      refine .of_still rfl fun q h => ?_
      have hstored := Option.filter_eq_some_iff.mp h.stored
      rw [hstored.1, Option.getD_some] at hne
      exact of_decide_eq_true hstored.2 hne
    · rw [if_pos ⟨hne, rfl⟩]
      obtain ⟨p, hnew⟩ : ∃ p, item.newPath = some p := by
        cases hn : item.newPath with
        | none => exact absurd (by rw [hn]; rfl) hne
        | some p => exact ⟨p, rfl⟩
      rw [hnew, Option.getD_some] at hp hne ⊢
      exact .of_body (Option.filter_eq_some_iff.mpr ⟨hnew, decide_eq_true hne⟩) hp
  · rw [final, bind_ok (pathExists_false hp), if_neg (by simp)]
    refine .of_still rfl fun q h => ?_
    have hstored := Option.filter_eq_some_iff.mp h.stored
    rw [hstored.1, Option.getD_some] at hp
    exact hp h.there

/-- After its turn the row is back, and those before still are, exactly if they were and
the row is restored. -/
theorem RollTurn.home_iff (file : ℕ → β) {done : List RenameHistory} (h : RollTurn stored env exts item d d₁)
    (hvideo : Unrelated exts item.originalPath) (hvideos : ∀ i ∈ done, Unrelated exts i.originalPath)
    (hnew : ∀ i ∈ done, i.originalPath ≠ item.originalPath) :
    (∀ i ∈ item :: done, d₁.files.lookup i.originalPath = some (file i.id)) ↔
      (∀ i ∈ done, d.files.lookup i.originalPath = some (file i.id)) ∧
        Restores stored env file done item d := by
  rw [List.forall_mem_cons]
  by_cases hmoves : ∃ p, MovesBack stored env item d p
  · obtain ⟨p, hp⟩ := hmoves
    have hitem : d₁.files.lookup item.originalPath = d.files.lookup p := by
      rw [h.back p _ hp hvideo, if_pos rfl]
    have hdone : ∀ i ∈ done, d₁.files.lookup i.originalPath =
        if i.originalPath = p then none else d.files.lookup i.originalPath := by
      intro i hi
      rw [h.back p _ hp (hvideos i hi), if_neg (hnew i hi)]
    have hfree : d.files.lookup item.originalPath = none := Finmap.lookup_eq_none.mpr hp.free
    rw [hitem]
    constructor
    · intro hback
      have hhome : ∀ i ∈ done, i.originalPath ≠ p ∧
          d.files.lookup i.originalPath = some (file i.id) := by
        intro i hi
        have hi₁ := hback.2 i hi
        rw [hdone i hi] at hi₁
        split_ifs at hi₁ with he
        exact ⟨he, hi₁⟩
      exact ⟨fun i hi => (hhome i hi).2, .inr ⟨p, hp, hback.1, fun i hi => (hhome i hi).1⟩⟩
    · intro hback
      obtain ⟨hhome, hrestores⟩ := hback
      rcases hrestores with hback | ⟨q, hq, hfile, hspared⟩
      · rw [hfree] at hback
        cases hback
      · obtain rfl : p = q := Option.some.inj (hp.stored.symm.trans hq.stored)
        refine ⟨hfile, fun i hi => ?_⟩
        rw [hdone i hi, if_neg (hspared i hi)]
        exact hhome i hi
  · have hnone : ∀ p, ¬ MovesBack stored env item d p := fun p hp => hmoves ⟨p, hp⟩
    rw [h.still hnone, and_comm]
    refine and_congr_right fun _ => ⟨fun hhome => .inl hhome, fun hrestores => ?_⟩
    rcases hrestores with hhome | ⟨p, hp, -⟩
    · exact hhome
    · exact absurd hp (hnone p)

end Rows

section Loop
variable {stored : RenameHistory → Option Path} {env : Env} {exts : List Path}
variable {run : RenameHistory → FileM β RenameHistory} {file : ℕ → β}

/-- The whole loop, by induction on the rows that are still to come. -/
theorem forItems_home_iff {items items' done : List RenameHistory} {d d' : Disk β}
    (hturn : ∀ item d, RollTurn stored env exts item d (final (run item) d))
    (honce : ((done ++ items).map (·.originalPath)).Nodup)
    (hvideos : ∀ i ∈ done ++ items, Unrelated exts i.originalPath)
    (h : forItems (fun _ => true) run items d = .ok items' d') :
    (∀ i ∈ done ++ items, d'.files.lookup i.originalPath = some (file i.id)) ↔
      (∀ i ∈ done, d.files.lookup i.originalPath = some (file i.id)) ∧
        PartialRun.Along (rollStep run) (fun s item => Restores stored env file s.1 item s.2)
          (done, d) items := by
  induction items generalizing done d items' with
  | nil =>
      cases h
      rw [List.append_nil]
      exact ⟨fun hall => ⟨hall, trivial⟩, fun hall => hall.1⟩
  | cons item rest ih =>
      obtain ⟨item', d₁, rest', hrun, hrest, rfl⟩ := forItems_cons_iff.mp h
      rw [if_pos rfl] at hrun
      have hperm : (done ++ item :: rest).Perm ((item :: done) ++ rest) := List.perm_middle
      have honce' : (((item :: done) ++ rest).map (·.originalPath)).Nodup :=
        (hperm.map _).nodup_iff.mp honce
      have hvideos' : ∀ i ∈ (item :: done) ++ rest, Unrelated exts i.originalPath := fun i hi =>
        hvideos i (hperm.mem_iff.mpr hi)
      have hnew : ∀ i ∈ done, i.originalPath ≠ item.originalPath := by
        intro i hi he
        have hnodup := (List.nodup_cons.mp honce').1
        exact hnodup (List.mem_map.mpr ⟨i, List.mem_append_left _ hi, he⟩)
      have hturn₁ : RollTurn stored env exts item d d₁ := final_ok hrun ▸ hturn item d
      have hhome := hturn₁.home_iff file (hvideos' item List.mem_cons_self)
        (fun i hi => hvideos' i (List.mem_append_left _ (List.mem_cons_of_mem _ hi))) hnew
      have hall : (∀ i ∈ done ++ item :: rest,
          d'.files.lookup i.originalPath = some (file i.id)) ↔
          ∀ i ∈ (item :: done) ++ rest, d'.files.lookup i.originalPath = some (file i.id) :=
        forall_congr' fun i => by rw [hperm.mem_iff]
      have hstep : rollStep run (done, d) item = some (item :: done, d₁) :=
        congrArg (fun d => some (item :: done, d)) (final_ok hrun)
      have hcons : PartialRun.Along (rollStep run)
          (fun s item => Restores stored env file s.1 item s.2) (done, d) (item :: rest) ↔
          Restores stored env file done item d ∧ PartialRun.Along (rollStep run)
            (fun s item => Restores stored env file s.1 item s.2) (item :: done, d₁) rest := by
        rw [PartialRun.along_cons]
        refine and_congr_right fun _ => ⟨fun hnext => hnext _ hstep, fun hnext u hu => ?_⟩
        rw [hstep] at hu
        cases hu
        exact hnext
      rw [hall, ih honce' hvideos' hrest, hhome, hcons, and_assoc]

end Loop

theorem RenameService.rollback_eq_ok {env : Env} {exts : List Path} {batch batch' : RenameBatch}
    {result : RenameExecuteResult} {d d' : Disk β}
    (h : rollback env exts batch d = .ok (batch', result) d') : batch'.status = .rolledBack ∧
      ∃ items', forItems (fun _ => true) (rollbackItem env exts) (rollbackOrder batch.items) d =
        .ok items' d' := by
  by_cases hs : batch.status = .rolledBack
  · rw [rollback, if_pos hs] at h
    cases h
  · rw [rollback, if_neg hs] at h
    obtain ⟨items', d₁, hloop, h⟩ := bind_eq_ok.mp h
    cases h
    exact ⟨rfl, items', hloop⟩

theorem SmartRenameService.rollback_eq_ok {env : Env} {exts : List Path}
    {batch batch' : RenameBatch} {result : RenameExecuteResult} {d d' : Disk β}
    (h : rollback env exts batch d = .ok (batch', result) d') : batch'.status = .rolledBack ∧
      ∃ items', forItems (fun _ => true) (rollbackItem env exts) (rollbackOrder batch.items) d =
        .ok items' d' := by
  by_cases hs : batch.status = .rolledBack
  · rw [rollback, if_pos hs] at h
    cases h
  · rw [rollback, if_neg hs] at h
    obtain ⟨items', d₁, hloop, h⟩ := bind_eq_ok.mp h
    cases h
    exact ⟨rfl, items', hloop⟩

/-- The rows rolled back before and the rows of the loop. -/
abbrev rolledBackRows (items : List RenameHistory) : List RenameHistory :=
  items.filter (·.status = .rolledBack)

theorem mem_rollbackOrder {items : List RenameHistory} {item : RenameHistory} :
    item ∈ rollbackOrder items ↔ item ∈ items ∧ item.status = .success := by
  rw [rollbackOrder, (List.perm_insertionSort _ _).mem_iff, List.mem_filter, decide_eq_true_eq]

theorem allBack_iff {file : ℕ → β} {items : List RenameHistory} {files : FileMap Path β} :
    AllBack file items files ↔ ∀ i ∈ rolledBackRows items ++ rollbackOrder items,
      files.lookup i.originalPath = some (file i.id) := by
  refine forall_congr' fun i => ?_
  rw [List.mem_append, List.mem_filter, mem_rollbackOrder, decide_eq_true_eq, ← and_or_left,
    and_imp]
  refine imp_congr_right fun _ => ?_
  simp only [List.mem_cons, List.not_mem_nil, or_false]
  rw [or_comm]

/-- Each video belongs to one of these rows at most. -/
theorem Scanned.rolledBack_once {items : List RenameHistory} (h : Scanned items) :
    ((rolledBackRows items ++ rollbackOrder items).map (·.originalPath)).Nodup := by
  have hfilter : ∀ p : RenameHistory → Bool, ((items.filter p).map (·.originalPath)).Nodup :=
    fun p => h.once.sublist (List.filter_sublist.map _)
  have horder : ((rollbackOrder items).map (·.originalPath)).Nodup :=
    ((List.perm_insertionSort _ _).map _).nodup_iff.mpr (hfilter _)
  rw [List.map_append, List.nodup_append]
  refine ⟨hfilter _, horder, fun p hp q hq he => ?_⟩
  obtain ⟨i, hi, rfl⟩ := List.mem_map.mp hp
  obtain ⟨j, hj, rfl⟩ := List.mem_map.mp hq
  obtain ⟨hi, his⟩ := List.mem_filter.mp hi
  obtain ⟨hj, hjs⟩ := mem_rollbackOrder.mp hj
  obtain rfl : i = j := List.inj_on_of_nodup_map h.once hi hj he
  rw [hjs] at his
  cases of_decide_eq_true his

theorem Scanned.rolledBack_videos {items : List RenameHistory} (h : Scanned items) :
    ∀ i ∈ rolledBackRows items ++ rollbackOrder items,
      Unrelated relatedExtensions i.originalPath := by
  intro i hi
  rcases List.mem_append.mp hi with hi | hi
  · exact h.videos i (List.mem_filter.mp hi).1
  · exact h.videos i (mem_rollbackOrder.mp hi).1

/-- The batch counts as rolled back only if all its rows are back; else the same rollback
can be asked for again. -/
def MarkedTruly (rollback : RenameBatch → FileM β (RenameBatch × RenameExecuteResult))
    (file : ℕ → β) (batch batch' : RenameBatch) (d' : Disk β) : Prop :=
  (batch'.status = .rolledBack → AllBack file batch.items d'.files) ∧
    (¬ AllBack file batch.items d'.files → ∃ res d'', rollback batch' d' = .ok res d'')

/-- The mark is the only status `rollback` leaves. -/
theorem markedTruly_iff {rollback : RenameBatch → FileM β (RenameBatch × RenameExecuteResult)}
    {file : ℕ → β} {batch batch' : RenameBatch} {d' : Disk β} (h : batch'.status = .rolledBack) :
    MarkedTruly rollback file batch batch' d' ↔ AllBack file batch.items d'.files :=
  ⟨fun hmark => hmark.1 h, fun hback => ⟨fun _ => hback, fun hn => absurd hback hn⟩⟩

/-- For every operating system, every disk and the rows of a scan with any statuses, in
both services: the batch is marked as rolled back only if the files of all renamed rows
are back, exactly if those of earlier rollbacks are and each row is restored at its turn. -/
theorem rolledBack_truly_iff {env : Env} {exts exts' : List Path} {batch : RenameBatch}
    (file : ℕ → β) (d : Disk β) (hexts : exts.Perm relatedExtensions)
    (hexts' : exts'.Perm smartRelatedExtensions) (hscan : Scanned batch.items) :
    (∀ batch' result d', RenameService.rollback env exts batch d = .ok (batch', result) d' →
      (MarkedTruly (RenameService.rollback env exts) file batch batch' d' ↔
        (∀ i ∈ rolledBackRows batch.items, d.files.lookup i.originalPath = some (file i.id)) ∧
          PartialRun.Along (rollStep (RenameService.rollbackItem env exts))
            (fun s item => Restores RenameService.storedPath env file s.1 item s.2)
            (rolledBackRows batch.items, d) (rollbackOrder batch.items))) ∧
    ∀ batch' result d', SmartRenameService.rollback env exts' batch d = .ok (batch', result) d' →
      (MarkedTruly (SmartRenameService.rollback env exts') file batch batch' d' ↔
        (∀ i ∈ rolledBackRows batch.items, d.files.lookup i.originalPath = some (file i.id)) ∧
          PartialRun.Along (rollStep (SmartRenameService.rollbackItem env exts'))
            (fun s item => Restores SmartRenameService.storedPath env file s.1 item s.2)
            (rolledBackRows batch.items, d) (rollbackOrder batch.items)) := by
  refine ⟨fun batch' result d' h => ?_, fun batch' result d' h => ?_⟩
  · obtain ⟨hmark, items', hloop⟩ := RenameService.rollback_eq_ok h
    rw [markedTruly_iff hmark, allBack_iff]
    have hvideos : ∀ i ∈ rolledBackRows batch.items ++ rollbackOrder batch.items,
        Unrelated exts i.originalPath := fun i hi => (hscan.rolledBack_videos i hi).perm hexts
    exact forItems_home_iff RenameService.rollbackItem_turn hscan.rolledBack_once hvideos hloop
  · obtain ⟨hmark, items', hloop⟩ := SmartRenameService.rollback_eq_ok h
    rw [markedTruly_iff hmark, allBack_iff]
    have hvideos : ∀ i ∈ rolledBackRows batch.items ++ rollbackOrder batch.items,
        Unrelated exts' i.originalPath := fun i hi =>
      (hscan.rolledBack_videos i hi).smart.perm hexts'
    exact forItems_home_iff SmartRenameService.rollbackItem_turn hscan.rolledBack_once hvideos
      hloop

/-- `renameToB` after its execute. -/
def renamedToB : RenameBatch where
  batchId := "batch"
  items := [
    { id := 1
      originalPath := "/m/a.mkv".toList
      newPath := some "/m/b.mkv".toList
      status := .success
      executedAt := some 3 }]
  status := .completed
  totalItems := 1
  successItems := 1

theorem renamedToB_scanned : Scanned renamedToB.items :=
  ⟨by decide, by
    intro item hi ext he
    rw [List.mem_singleton.mp hi]
    revert ext
    decide⟩

/-- The renamed video, and the same with a new file at the original path. -/
def renamedVideo : FileMap Path ℕ := [⟨"/m/b.mkv".toList, 1⟩].toFinmap

def reoccupied : FileMap Path ℕ := [⟨"/m/b.mkv".toList, 1⟩, ⟨"/m/a.mkv".toList, 2⟩].toFinmap

theorem renamed_video_back : ∃ batch' result d',
    SmartRenameService.rollback smoothEnv smartRelatedExtensions renamedToB
      { files := renamedVideo } = .ok (batch', result) d' ∧
    MarkedTruly (SmartRenameService.rollback smoothEnv smartRelatedExtensions) (fun _ => 1)
      renamedToB batch' d' := by
  cases hrun : SmartRenameService.rollback smoothEnv smartRelatedExtensions renamedToB
      { files := renamedVideo } with
  | error e d' =>
      have hok : (match SmartRenameService.rollback smoothEnv smartRelatedExtensions renamedToB
          { files := renamedVideo } with
        | .ok _ _ => true
        | .error _ _ => false) = true := by decide +kernel
      rw [hrun] at hok
      cases hok
  | ok res d' =>
      refine ⟨res.1, res.2, d', rfl, ?_⟩
      refine ((rolledBack_truly_iff (fun _ => 1) { files := renamedVideo } (.refl _) (.refl _)
        renamedToB_scanned).2 res.1 res.2 d' hrun).mpr
        ⟨fun i hi => (by cases hi), .inr ⟨"/m/b.mkv".toList, ?_, by decide +kernel, ?_⟩,
          fun _ _ => trivial⟩
      · exact ⟨rfl, by decide +kernel, by decide, rfl, by decide +kernel, rfl⟩
      · exact fun i hi => (by cases hi)

/-- The original path is occupied: the file stays at its new path, the batch counts as
rolled back, and a further rollback is refused. -/
theorem marked_not_back :
    (∃ batch' result d', RenameService.rollback smoothEnv relatedExtensions renamedToB
        { files := reoccupied } = .ok (batch', result) d' ∧ batch'.status = .rolledBack ∧
      d'.files.lookup "/m/b.mkv".toList = some 1 ∧ d'.files.lookup "/m/a.mkv".toList = some 2 ∧
      ¬ AllBack (fun _ => 1) renamedToB.items d'.files ∧
      RenameService.rollback smoothEnv relatedExtensions batch' d' =
        .error batch'.alreadyRolledBack d') ∧
    ∃ batch' result d', SmartRenameService.rollback smoothEnv smartRelatedExtensions renamedToB
        { files := reoccupied } = .ok (batch', result) d' ∧ batch'.status = .rolledBack ∧
      d'.files.lookup "/m/b.mkv".toList = some 1 ∧ d'.files.lookup "/m/a.mkv".toList = some 2 ∧
      ¬ AllBack (fun _ => 1) renamedToB.items d'.files ∧
      SmartRenameService.rollback smoothEnv smartRelatedExtensions batch' d' =
        .error batch'.alreadyRolledBack d' := by
  have hrows : ∀ result : EStateM.Result String (Disk ℕ) (RenameBatch × RenameExecuteResult),
      (match result with
        | .ok _ d' => decide (d'.files.lookup "/m/b.mkv".toList = some 1 ∧
            d'.files.lookup "/m/a.mkv".toList = some 2)
        | .error _ _ => false) = true →
      ∃ batch' r d', result = .ok (batch', r) d' ∧
        d'.files.lookup "/m/b.mkv".toList = some 1 ∧
        d'.files.lookup "/m/a.mkv".toList = some 2 ∧
        ¬ AllBack (fun _ => 1) renamedToB.items d'.files := by
    intro result h
    cases result with
    | error e d' => cases h
    | ok res d' =>
        obtain ⟨hb, ha⟩ := of_decide_eq_true h
        refine ⟨res.1, res.2, d', rfl, hb, ha, fun hback => ?_⟩
        have hone : d'.files.lookup "/m/a.mkv".toList = some 1 :=
          hback _ List.mem_cons_self (by decide)
        rw [ha] at hone
        cases hone
  constructor
  · obtain ⟨batch', r, d', hrun, hb, ha, hnot⟩ := hrows
      (RenameService.rollback smoothEnv relatedExtensions renamedToB { files := reoccupied })
      (by decide +kernel)
    have hmark := (RenameService.rollback_eq_ok hrun).1
    exact ⟨batch', r, d', hrun, hmark, hb, ha, hnot, by rw [RenameService.rollback, if_pos hmark]; rfl⟩
  · obtain ⟨batch', r, d', hrun, hb, ha, hnot⟩ := hrows
      (SmartRenameService.rollback smoothEnv smartRelatedExtensions renamedToB
        { files := reoccupied }) (by decide +kernel)
    have hmark := (SmartRenameService.rollback_eq_ok hrun).1
    exact ⟨batch', r, d', hrun, hmark, hb, ha, hnot,
      by rw [SmartRenameService.rollback, if_pos hmark]; rfl⟩

end SmartMedia.Media
