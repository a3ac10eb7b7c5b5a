import SmartMedia.Media.Contents
import SmartMedia.Media.Undo

/-!
# Rolling a batch back

The rows of an executed batch are rolled back by `executed_at`, the last one first. If
each row was executed with a clear way, every rollback finds the files as its execute
left them and restores the state before it; the induction over the batch carries
this for the rest of the rows, in reversed order.
-/
namespace SmartMedia.Media
open StateProgram

variable {β : Type}

section Batches
variable {roll : RenameHistory → FileM β RenameHistory} {d d₁ d' : Disk β}
variable {xs ys : List RenameHistory}

/-- The loop over some rows, from any disk with the files of `d'`, restores the files
of `d`, by moves opposite to those made between `d` and `d'`. -/
def UndoneBy (roll : RenameHistory → FileM β RenameHistory) (items : List RenameHistory)
    (d d' : Disk β) : Prop :=
  ∃ L, d'.log = d.log ++ L ∧ ∀ d₂ : Disk β, d₂.files = d'.files →
    ∃ res d₃ R, forItems (fun _ => true) roll items d₂ = .ok res d₃ ∧ d₃.files = d.files ∧
      d₃.log = d₂.log ++ R ∧ ∀ m ∈ R, ∃ m' ∈ L, Opposite m m'

section Loops
variable {selected : RenameHistory → Bool} {run : RenameHistory → FileM β RenameHistory}

theorem forItems_cons (item : RenameHistory) (rest : List RenameHistory) :
    forItems selected run (item :: rest) =
      ((if selected item then run item else pure item) >>= fun item' =>
        forItems selected run rest >>= fun rest' => pure (item' :: rest')) := by
  simp only [forItems]
  cases selected item <;> rfl

theorem forItems_cons_iff {item : RenameHistory} {rest res : List RenameHistory} :
    forItems selected run (item :: rest) d = .ok res d' ↔
      ∃ item' d₁ rest', (if selected item then run item else pure item) d = .ok item' d₁ ∧
        forItems selected run rest d₁ = .ok rest' d' ∧ res = item' :: rest' := by
  rw [forItems_cons, bind_eq_ok]
  refine exists_congr fun item' => exists_congr fun d₁ => ?_
  rw [bind_eq_ok]
  constructor
  · intro h
    obtain ⟨hrun, rest', d₂, hrest, hres⟩ := h
    cases hres
    exact ⟨rest', hrun, hrest, rfl⟩
  · intro h
    obtain ⟨rest', hrun, hrest, rfl⟩ := h
    exact ⟨hrun, rest', d', hrest, rfl⟩

theorem forItems_append_ok {xs' ys' : List RenameHistory}
    (hx : forItems selected run xs d = .ok xs' d₁) (hy : forItems selected run ys d₁ = .ok ys' d') :
    forItems selected run (xs ++ ys) d = .ok (xs' ++ ys') d' := by
  induction xs generalizing d xs' with
  | nil =>
      cases hx
      exact hy
  | cons x xs ih =>
      obtain ⟨x', d₂, rest', hrun, hrest, rfl⟩ := forItems_cons_iff.mp hx
      exact forItems_cons_iff.mpr ⟨x', d₂, rest' ++ ys', hrun, ih hrest, rfl⟩

end Loops

theorem UndoneBy.of_same (hf : d'.files = d.files) (hl : d'.log = d.log) :
    UndoneBy roll [] d d' :=
  ⟨[], by rw [hl, List.append_nil], fun d₂ h₂ =>
    ⟨[], d₂, [], rfl, h₂.trans hf, by rw [List.append_nil], fun m hm => by cases hm⟩⟩

/-- What was done first is undone last. -/
theorem UndoneBy.trans (hx : UndoneBy roll xs d₁ d') (hy : UndoneBy roll ys d d₁) :
    UndoneBy roll (xs ++ ys) d d' := by
  obtain ⟨L, hL, hundo⟩ := hx
  obtain ⟨L₁, hL₁, hundo₁⟩ := hy
  refine ⟨L₁ ++ L, by rw [hL, hL₁, List.append_assoc], fun d₂ h₂ => ?_⟩
  obtain ⟨res, d₃, R, hrun, hfiles, hR, hopp⟩ := hundo d₂ h₂
  obtain ⟨res₁, d₄, R₁, hrun₁, hfiles₁, hR₁, hopp₁⟩ := hundo₁ d₃ hfiles
  refine ⟨res ++ res₁, d₄, R ++ R₁, forItems_append_ok hrun hrun₁, hfiles₁, ?_, fun m hm => ?_⟩
  · rw [hR₁, hR, List.append_assoc]
  · rcases List.mem_append.mp hm with hm | hm
    · obtain ⟨m', hm', ho⟩ := hopp m hm
      exact ⟨m', List.mem_append_right _ hm', ho⟩
    · obtain ⟨m', hm', ho⟩ := hopp₁ m hm
      exact ⟨m', List.mem_append_left _ hm', ho⟩

/-- Insertion sort by falling dates reverses a list of rising dates. -/
theorem insertionSort_eq_reverse {items : List RenameHistory}
    (h : items.Pairwise fun a b => a.executedKey < b.executedKey) :
    items.insertionSort (fun a b => b.executedKey ≤ a.executedKey) = items.reverse := by
  induction items with
  | nil => rfl
  | cons item rest ih =>
      obtain ⟨hfirst, hrest⟩ := List.pairwise_cons.mp h
      have hins : ∀ l : List RenameHistory, (∀ b ∈ l, item.executedKey < b.executedKey) →
          l.orderedInsert (fun a b => b.executedKey ≤ a.executedKey) item = l ++ [item] := by
        intro l hl
        induction l with
        | nil => rfl
        | cons b l ihl =>
            have hb := hl b List.mem_cons_self
            rw [List.orderedInsert_cons, if_neg (not_le.mpr hb),
              ihl fun c hc => hl c (List.mem_cons_of_mem _ hc), List.cons_append]
      rw [List.insertionSort_cons, ih hrest, List.reverse_cons]
      exact hins _ fun b hb => hfirst b (List.mem_reverse.mp hb)

theorem rollbackOrder_eq_reverse {items : List RenameHistory}
    (h : (items.filter (·.status = .success)).Pairwise fun a b => a.executedKey < b.executedKey) :
    rollbackOrder items = (items.filter (·.status = .success)).reverse :=
  insertionSort_eq_reverse h

/-- What executing one row has to provide: a success is dated between the calls before
and after it, and can be undone; anything else has changed no file. -/
structure ItemSpec (env : Env) (roll : RenameHistory → FileM β RenameHistory)
    (item' : RenameHistory) (d d₁ : Disk β) : Prop where
  calls : d.calls ≤ d₁.calls
  found : d₁.found = d.found
  date : item'.status = .success →
    ∃ k, d.calls ≤ k ∧ k < d₁.calls ∧ item'.executedAt = some (env.now k)
  undone : UndoneBy roll ([item'].filter (·.status = .success)) d d₁

/-- One row of the loop, as a step on the disk. -/
def itemStep (selected : RenameHistory → Bool) (run : RenameHistory → FileM β RenameHistory)
    (d : Disk β) (item : RenameHistory) : Option (Disk β) :=
  some (final (if selected item then run item else pure item) d)

/-- A whole loop is undone by the successful rows in reversed order, and these are
ordered by their dates. -/
theorem forItems_undone {env : Env} {selected : RenameHistory → Bool}
    {run : RenameHistory → FileM β RenameHistory} {Ready : RenameHistory → Disk β → Prop}
    {items : List RenameHistory} (hclock : StrictMono env.now)
    (hspec : ∀ item d, item.status ≠ .success → (selected item = true → Ready item d) →
      ∃ item' d₁, (if selected item then run item else pure item) d = .ok item' d₁ ∧
        ItemSpec env roll item' d d₁)
    (hstatus : ∀ item ∈ items, item.status ≠ .success)
    (hready : PartialRun.Along (itemStep selected run)
      (fun d item => selected item = true → Ready item d) d items) :
    ∃ items' d', forItems selected run items d = .ok items' d' ∧ d'.found = d.found ∧
      d.calls ≤ d'.calls ∧ (∀ item ∈ items'.filter (·.status = .success),
        ∃ k, d.calls ≤ k ∧ k < d'.calls ∧ item.executedAt = some (env.now k)) ∧
      (items'.filter (·.status = .success)).Pairwise (fun a b => a.executedKey < b.executedKey) ∧
      UndoneBy roll (items'.filter (·.status = .success)).reverse d d' := by
  induction items generalizing d with
  | nil => exact ⟨[], d, rfl, rfl, le_rfl, fun _ h => (by cases h), .nil, .of_same rfl rfl⟩
  | cons item rest ih =>
      obtain ⟨item', d₁, hrun, hitem⟩ := hspec item d (hstatus item List.mem_cons_self) hready.1
      have hnext : itemStep selected run d item = some d₁ := congrArg some (final_ok hrun)
      obtain ⟨rest', d', hrest, hfound, hcalls, hdates, hsorted, hundone⟩ :=
        ih (fun i hi => hstatus i (List.mem_cons_of_mem _ hi)) (hready.2 d₁ hnext)
      have hfilter : (item' :: rest').filter (·.status = .success) =
          [item'].filter (·.status = .success) ++ rest'.filter (·.status = .success) := by
        rw [← List.filter_append]
        rfl
      refine ⟨item' :: rest', d', forItems_cons_iff.mpr ⟨item', d₁, rest', hrun, hrest, rfl⟩,
        hfound.trans hitem.found, hitem.calls.trans hcalls, ?_, ?_, ?_⟩
      · intro i hi
        rw [hfilter, List.mem_append] at hi
        rcases hi with hi | hi
        · obtain ⟨hmem, hsucc⟩ := List.mem_filter.mp hi
          obtain rfl := List.mem_singleton.mp hmem
          obtain ⟨k, hk, hk', he⟩ := hitem.date (of_decide_eq_true hsucc)
          exact ⟨k, hk, by omega, he⟩
        · obtain ⟨k, hk, hk', he⟩ := hdates i hi
          have hle := hitem.calls
          exact ⟨k, by omega, hk', he⟩
      · rw [hfilter, List.pairwise_append]
        refine ⟨(List.pairwise_singleton _ _).sublist List.filter_sublist, hsorted, ?_⟩
        intro a ha b hb
        obtain ⟨hmem, hsucc⟩ := List.mem_filter.mp ha
        obtain rfl := List.mem_singleton.mp hmem
        obtain ⟨k, -, hk, he⟩ := hitem.date (of_decide_eq_true hsucc)
        obtain ⟨k', hk', -, he'⟩ := hdates b hb
        have hlt : env.now k < env.now k' := hclock (by omega)
        rw [RenameHistory.executedKey, RenameHistory.executedKey, he, he']
        exact Nat.succ_lt_succ hlt
      · rw [hfilter, List.reverse_append]
        have hself : ([item'].filter (·.status = .success)).reverse =
            [item'].filter (·.status = .success) := by
          by_cases hsucc : item'.status = .success <;> simp [hsucc]
        rw [hself]
        exact hundone.trans hitem.undone

end Batches

section Rows
variable {env env' : Env} {exts exts' : List Path} {d d' : Disk β} {file : β} {item : RenameHistory}

theorem makeDirs_ok (hs : env.Smooth) {dir : Path} (h : dir ≠ []) :
    makeDirs env dir d = .ok () { d with calls := d.calls + 1 } := by
  rw [makeDirs, if_neg h, osCall, hs]

theorem moveWithRelated_missing (hs : env.Smooth) (exts : List Path) (id : ℕ) {src : Path}
    (dst : Path) (h : src ∉ d.files) : moveWithRelated env exts id src dst d =
      .error (env.missing src) { d with calls := d.calls + 1 } :=
  bind_error (shutilMove_missing hs (Finmap.lookup_eq_none.mpr h))

/-- Rolling back a row whose new path is there and whose original path is free is the
routine with exchanged paths, between two further calls. -/
def RollsBack (env : Env) (exts : List Path) (roll : RenameHistory → FileM β RenameHistory) : Prop :=
  ∀ (item : RenameHistory) (p : Path) (d d₁ : Disk β), item.newPath = some p → p ≠ [] →
    p ∈ d.files → item.originalPath ∉ d.files → dirname item.originalPath ≠ [] →
    moveWithRelated env exts item.id p item.originalPath { d with calls := d.calls + 1 } =
      .ok () d₁ → ∃ item', roll item d = .ok item' { d₁ with calls := d₁.calls + 1 }

theorem pathExists_true {p : Path} (h : p ∈ d.files) : pathExists p d = .ok true d := by
  obtain ⟨x, hx⟩ := Finmap.mem_iff.mp h
  rw [pathExists, hx]
  rfl

theorem pathExists_false {p : Path} (h : p ∉ d.files) : pathExists p d = .ok false d := by
  rw [pathExists, Finmap.lookup_eq_none.mpr h]
  rfl

theorem pathExists_eq_false {p : Path} (h : pathExists p d = .ok false d') : p ∉ d'.files := by
  by_cases hp : p ∈ d.files
  · rw [pathExists_true hp] at h
    cases h
  · rw [pathExists_false hp] at h
    cases h
    exact hp

theorem RenameService.rollsBack (hs : env.Smooth) :
    RollsBack (β := β) env exts (RenameService.rollbackItem env exts) := by
  intro item p d d₁ hnew _ hthere hgone hdir hrun
  refine ⟨{ item with status := .rolledBack, rolledBackAt := some (env.now d₁.calls) }, ?_⟩
  rw [RenameService.rollbackItem, hnew]
  refine tryCatch_ok ((bind_ok (pathExists_true hthere)).trans ?_)
  refine (bind_ok (makeDirs_ok hs hdir)).trans ?_
  refine (bind_ok (pathExists_false (d := { d with calls := d.calls + 1 }) hgone)).trans ?_
  exact (bind_ok hrun).trans rfl

/-- A row moved with a clear way is undone by its rollback. -/
theorem undoneBy_moved {roll : RenameHistory → FileM β RenameHistory} {dst : Path}
    (hroll : RollsBack env' exts' roll) (hs' : env'.Smooth) (hext : IsExtensions exts)
    (hperm : exts'.Perm exts) (hnew : item.newPath = some dst) (hne : dst ≠ [])
    (hdir : dirname item.originalPath ≠ []) (hsrc : d.files.lookup item.originalPath = some file)
    (hfree : dst ∉ d.files) (hclear : Clear exts item.originalPath dst d.files)
    (hp : Performs item.id (itemPairs exts item.originalPath dst d.files) d d') :
    UndoneBy roll [item] d d' := by
  have hmain : (item.originalPath, dst) ∈ itemPairs exts item.originalPath dst d.files :=
    mem_itemPairs.mpr (.inl rfl)
  obtain ⟨L, hlog, -⟩ := hp.log
  refine ⟨L, hlog, fun d₂ h₂ => ?_⟩
  have hthere : dst ∈ d₂.files := by
    rw [h₂]
    exact Finmap.mem_iff.mpr ⟨file, (hp.files.moved _ hmain).trans hsrc⟩
  have hgone : item.originalPath ∉ d₂.files := by
    rw [h₂, ← Finmap.lookup_eq_none]
    exact hp.files.gone _ hmain
  obtain ⟨d₃, L', R, hrun, hfiles, hlog', hR, hopp⟩ := moveWithRelated_back
    { d₂ with calls := d₂.calls + 1 } hs' hext hperm hsrc hfree hclear hp h₂
  obtain ⟨item', hitem⟩ := hroll item dst d₂ d₃ hnew hne hthere hgone hdir hrun
  have hL : L' = L := List.append_cancel_left (hlog'.symm.trans hlog)
  refine ⟨[item'], { d₃ with calls := d₃.calls + 1 }, R, ?_, hfiles, hR, hL ▸ hopp⟩
  exact forItems_cons_iff.mpr ⟨item', _, [], hitem, rfl, rfl⟩

/-- A row that did not succeed and changed no file has nothing to undo. -/
theorem ItemSpec.of_unchanged {roll : RenameHistory → FileM β RenameHistory}
    (hstatus : item.status ≠ .success) (hf : d'.files = d.files) (hl : d'.log = d.log)
    (hc : d.calls ≤ d'.calls) (hfound : d'.found = d.found) : ItemSpec env roll item d d' := by
  refine ⟨hc, hfound, fun h => absurd h hstatus, ?_⟩
  rw [List.filter_cons, if_neg (by simpa using hstatus), List.filter_nil]
  exact .of_same hf hl

/-- A row of `RenameService` is executed with a clear way: its original path has a
directory part, and no other file stands at a sidecar name of its final path. -/
def RenameService.Ready (exts : List Path) (item : RenameHistory) (d : Disk β) : Prop :=
  ∀ planned, item.newPath = some planned → dirname planned ≠ [] → item.originalPath ∈ d.files →
    dirname item.originalPath ≠ [] ∧
      Clear exts item.originalPath (freePath d.files planned) d.files

theorem RenameService.executeItem_spec (hs : env.Smooth) (hs' : env'.Smooth)
    (hext : IsExtensions exts) (hperm : exts'.Perm exts) (hready : RenameService.Ready exts item d) :
    ∃ item' d₁, RenameService.executeItem env exts item d = .ok item' d₁ ∧
      ItemSpec env (RenameService.rollbackItem env' exts') item' d d₁ := by
  rw [RenameService.executeItem]
  cases hnew : item.newPath with
  | none => exact ⟨_, d, rfl, .of_unchanged (by simp [RenameHistory.fail]) rfl rfl le_rfl rfl⟩
  | some planned =>
      by_cases hdir : dirname planned = []
      · -- `os.makedirs("")` raises
        refine ⟨_, d, tryCatch_error (e := env.missing []) (bind_error ?_), ?_⟩
        · rw [makeDirs, if_pos hdir]
          rfl
        · exact .of_unchanged (by simp [RenameHistory.fail]) rfl rfl le_rfl rfl
      · have hfree := freePath_notMem d.files planned
        by_cases hsrc : item.originalPath ∈ d.files
        · obtain ⟨file, hfile⟩ := Finmap.mem_iff.mp hsrc
          obtain ⟨hdir', hclear⟩ := hready planned hnew hdir hsrc
          obtain ⟨d₁, hrun, hp⟩ := moveWithRelated_performs item.id
            (d := { d with calls := d.calls + 1 }) hs hext hfile hfree hclear
          have hne : planned ≠ [] := fun h => hdir (by rw [h]; rfl)
          have hcalls : d.calls + 1 ≤ d₁.calls := hp.calls
          let item' : RenameHistory := { item with
            newPath := some (freePath d.files planned)
            status := .success
            executedAt := some (env.now d₁.calls) }
          have hundone : UndoneBy (RenameService.rollbackItem env' exts') [item']
              { d with calls := d.calls + 1 } d₁ :=
            undoneBy_moved (RenameService.rollsBack hs') hs' hext hperm rfl (freePath_ne_nil hne)
              hdir' hfile hfree hclear hp
          refine ⟨item', { d₁ with calls := d₁.calls + 1 }, ?_,
            ⟨by show d.calls ≤ d₁.calls + 1; omega, hp.found, ?_, hundone⟩⟩
          · refine tryCatch_ok ((bind_ok (makeDirs_ok hs hdir)).trans ?_)
            exact tryCatch_ok ((bind_ok hrun).trans rfl)
          · exact fun _ => ⟨d₁.calls, by omega, Nat.lt_succ_self _, rfl⟩
        · -- nothing to move
          have hmissing := moveWithRelated_missing (d := { d with calls := d.calls + 1 }) hs exts
            item.id (freePath d.files planned) hsrc
          refine ⟨_, { d with calls := d.calls + 2 }, tryCatch_ok
            ((bind_ok (makeDirs_ok hs hdir)).trans (tryCatch_error (bind_error hmissing))), ?_⟩
          exact .of_unchanged (by simp [RenameHistory.fail]) rfl rfl (by simp) rfl

end Rows

/-- What `preview` of `RenameService` saves. -/
structure RenameService.Previewed (batch : RenameBatch) : Prop where
  status : batch.status = .previewing
  items : ∀ item ∈ batch.items, item.status = .matched ∨ item.status = .skipped

/-- The files after `execute` and then `rollback`, where `execute` returns. -/
def RenameService.executeAndRollback (env env' : Env) (exts exts' : List Path)
    (batch : RenameBatch) (files : FileMap Path β) : Option (FileMap Path β) :=
  match RenameService.execute env exts batch { files } with
  | .ok (batch', _) d => some (final (RenameService.rollback env' exts' batch') d).files
  | .error _ _ => none

/-- A loop that returns makes `execute` return, with the rows of the loop. -/
theorem RenameService.execute_returns {env : Env} {exts : List Path} {batch : RenameBatch}
    {files : FileMap Path β} {items' : List RenameHistory} {d' : Disk β}
    (hstatus : batch.status = .previewing)
    (hrun : forItems RenameService.selected (RenameService.executeItem env exts) batch.items
      { files, calls := 1 } = .ok items' d') :
    ∃ batch' result, RenameService.execute env exts batch { files } =
        .ok (batch', result) { d' with calls := d'.calls + 1 } ∧
      batch'.items = items' ∧ batch'.status ≠ .rolledBack := by
  let success := tally RenameService.selected batch.items items' .success
  let failed := tally RenameService.selected batch.items items' .failed
  let skipped := batch.totalItems - success - failed
  refine ⟨batch.complete items' success failed skipped (env.now 0) (env.now d'.calls),
    ⟨batch.batchId, batch.totalItems, success, failed, skipped⟩, ?_, rfl, ?_⟩
  · rw [RenameService.execute, if_pos (by rw [hstatus]; decide)]
    refine (bind_ok (rfl : clock env { files } = .ok (env.now 0) { files, calls := 1 })).trans ?_
    refine (bind_ok hrun).trans ?_
    exact (bind_ok rfl).trans rfl
  · show (if failed = 0 then BatchStatus.completed else .completedWithErrors) ≠ .rolledBack
    split_ifs <;> decide

/-- When every call succeeds and the clock rises, `rollback` restores exactly the files
before `execute`, for every preview batch each of whose rows is executed with a clear
way. The set orders of the two calls may differ. -/
theorem RenameService.rollback_restores {env env' : Env} {exts exts' : List Path}
    {batch : RenameBatch} {files : FileMap Path β} (hs : env.Smooth) (hs' : env'.Smooth)
    (hclock : StrictMono env.now) (hexts : exts.Perm relatedExtensions)
    (hexts' : exts'.Perm relatedExtensions) (hbatch : RenameService.Previewed batch)
    (hready : PartialRun.Along
      (itemStep RenameService.selected (RenameService.executeItem env exts))
      (fun d item => RenameService.selected item = true → RenameService.Ready exts item d)
      { files, calls := 1 } batch.items) :
    RenameService.executeAndRollback env env' exts exts' batch files = some files := by
  have hext := isExtensions_related hexts
  have hperm : exts'.Perm exts := hexts'.trans hexts.symm
  have hspec : ∀ (item : RenameHistory) (d : Disk β), item.status ≠ .success →
      (RenameService.selected item = true → RenameService.Ready exts item d) →
      ∃ item' d₁, (if RenameService.selected item then RenameService.executeItem env exts item
        else pure item) d = .ok item' d₁ ∧
        ItemSpec env (RenameService.rollbackItem env' exts') item' d d₁ := by
    intro item d hstatus hr
    cases hsel : RenameService.selected item with
    | true => exact RenameService.executeItem_spec hs hs' hext hperm (hr hsel)
    | false => exact ⟨item, d, rfl, .of_unchanged hstatus rfl rfl le_rfl rfl⟩
  have hstatus : ∀ item ∈ batch.items, item.status ≠ .success := by
    intro item hi
    rcases hbatch.items item hi with h | h <;> simp [h]
  obtain ⟨items', d', hrun, -, -, -, hsorted, L, -, hundo⟩ :=
    forItems_undone hclock hspec hstatus hready
  obtain ⟨batch', result, hexec, hitems, hopen⟩ :=
    RenameService.execute_returns hbatch.status hrun
  obtain ⟨res, d₃, R, hback, hfiles, -⟩ := hundo { d' with calls := d'.calls + 1 } rfl
  rw [← rollbackOrder_eq_reverse hsorted, ← hitems] at hback
  have hroll : (final (RenameService.rollback env' exts' batch')
      { d' with calls := d'.calls + 1 }).files = d₃.files := by
    rw [RenameService.rollback, if_neg hopen]
    exact congrArg Disk.files (final_ok ((bind_ok hback).trans rfl))
  rw [RenameService.executeAndRollback, hexec]
  show some (final (RenameService.rollback env' exts' batch') _).files = _
  rw [hroll, hfiles]

theorem RenameService.rollbackItem_leads {env : Env} {exts : List Path} (item : RenameHistory)
    (d : Disk β) : Leads Disk.Extends (RenameService.rollbackItem env exts item) d := by
  unfold RenameService.rollbackItem
  cases item.newPath with
  | none => exact .refl d
  | some newPath =>
      refine leads_tryCatch Disk.Extends.trans ?_ fun _ d₁ _ => .refl d₁
      refine leads_bind Disk.Extends.trans (.refl d) fun there d₁ _ => ?_
      cases there with
      | false => exact .refl d₁
      | true =>
          refine leads_bind Disk.Extends.trans (makeDirs_leads env _ d₁) fun _ d₂ _ => ?_
          refine leads_bind Disk.Extends.trans (.refl d₂) fun occupied d₃ h₃ => ?_
          cases occupied with
          | true => exact .refl d₃
          | false =>
              have hfree : item.originalPath ∉ d₃.files := pathExists_eq_false h₃
              refine leads_bind Disk.Extends.trans (moveWithRelated_leads hfree) fun _ d₄ _ => ?_
              exact leads_bind Disk.Extends.trans (clock_leads env d₄) fun _ d₅ _ => .refl d₅

theorem RenameService.rollback_leads {env : Env} {exts : List Path} (batch : RenameBatch)
    (d : Disk β) : Leads Disk.Extends (RenameService.rollback env exts batch) d := by
  unfold RenameService.rollback
  split_ifs
  · exact .refl d
  · exact leads_bind Disk.Extends.trans (forItems_leads .refl Disk.Extends.trans _
      (fun item _ _ => rollbackItem_leads item) d) fun _ d₁ _ =>
      .refl d₁

/-- Conversely, what a related file overwrote in `execute` no rollback brings back. -/
theorem RenameService.restored_spares_others {env env' : Env} {exts exts' : List Path}
    {batch : RenameBatch} {files : FileMap Path β}
    (h : RenameService.executeAndRollback env env' exts exts' batch files = some files) :
    PartialRun.Along FileMap.step SparesOthers files
      (final (RenameService.execute env exts batch) { files }).log := by
  rw [← (RenameService.execute_leads batch _).contents_iff]
  rw [RenameService.executeAndRollback] at h
  cases hexec : RenameService.execute env exts batch { files } with
  | error e d =>
      rw [hexec] at h
      cases h
  | ok res d =>
      rw [hexec] at h
      have hback : (final (RenameService.rollback env' exts' res.1) d).files = files :=
        Option.some.inj h
      have hleads : Leads Disk.Extends (RenameService.rollback env' exts' res.1) d :=
        RenameService.rollback_leads res.1 d
      obtain ⟨ms, -, hms, -⟩ := hleads
      rw [final_ok hexec, ← hback]
      exact FileMap.contents_exec_le hms

/-- The video and its subtitles without the ones at the new name. -/
def subtitledOnce : FileMap Path ℕ :=
  [⟨"/m/a.mkv".toList, 1⟩, ⟨"/m/a.srt".toList, 2⟩].toFinmap

theorem subtitles_restored :
    RenameService.executeAndRollback smoothEnv smoothEnv relatedExtensions relatedExtensions
      renameToB subtitledOnce = some subtitledOnce := by
  refine RenameService.rollback_restores (fun _ => rfl) (fun _ => rfl) (fun _ _ h => h)
    (List.Perm.refl _) (List.Perm.refl _) ⟨rfl, by decide⟩ ⟨fun _ planned hp _ _ => ?_, fun _ _ => trivial⟩
  cases hp
  exact ⟨by decide, by decide +kernel⟩

/-- The subtitles that were at the new name before are not there afterwards. -/
theorem subtitles_not_restored :
    subtitled.lookup "/m/b.srt".toList = some 3 ∧
      (RenameService.executeAndRollback smoothEnv smoothEnv relatedExtensions relatedExtensions
        renameToB subtitled).map (Finmap.lookup "/m/b.srt".toList) = some none ∧
      RenameService.executeAndRollback smoothEnv smoothEnv relatedExtensions relatedExtensions
        renameToB subtitled ≠ some subtitled := by
  have hbefore : subtitled.lookup "/m/b.srt".toList = some 3 := by decide +kernel
  have hafter : (RenameService.executeAndRollback smoothEnv smoothEnv relatedExtensions
      relatedExtensions renameToB subtitled).map (Finmap.lookup "/m/b.srt".toList) =
        some none := by decide +kernel
  refine ⟨hbefore, hafter, fun h => ?_⟩
  rw [h, Option.map_some, hbefore] at hafter
  cases hafter

end SmartMedia.Media
