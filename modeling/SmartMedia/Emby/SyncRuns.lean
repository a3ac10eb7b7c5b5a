import SmartMedia.Emby.LibrarySync

/-!
# What the syncs store

A sync looks its items up by the primary key, under the ids of Emby, and finds none of them. So it
only ever adds, and what it adds is written by a commit that no item brings about: the one of the
next library without a record.
-/
namespace SmartMedia.Emby.LibrarySync
open PythonText Strm

variable {env : SyncEnv} {db db' : Database} {changed : List ItemRow} {added : List NewItem}
  {library : Option EmbyLibrary} {item : Item} {file : Option Text} {now libraryId : ℕ}

section Tables

theorem lt_nextId {id : ℕ} {ids : List ℕ} (h : id ∈ ids) : id < nextId ids := by
  have hle : id ≤ ids.foldr max 0 := by
    induction ids with
    | nil => cases h
    | cons first rest ih =>
        rw [List.foldr_cons]
        rcases List.mem_cons.mp h with rfl | hrest
        · exact Nat.le_max_left ..
        · exact (ih hrest).trans (Nat.le_max_right ..)
  rw [nextId]
  omega

@[simp] theorem number_map (id : ℕ) (items : List NewItem) :
    (number id items).map (·.toNewItem) = items := by
  induction items generalizing id with
  | nil => rfl
  | cons item rest ih => rw [number, List.map_cons, ih]

@[simp] theorem rewrite_nil (row : ItemRow) : rewrite [] row = row := rfl

/-- What no update of a row changes. -/
def ItemRow.key (row : ItemRow) : ℕ × Option Text × ℕ := (row.id, row.embyId, row.libraryId)

@[simp] theorem rewrite_key (changed : List ItemRow) (row : ItemRow) :
    (rewrite changed row).key = row.key := by
  rw [rewrite]
  induction changed generalizing row with
  | nil => rfl
  | cons new rest ih =>
      rw [List.foldl_cons, ih]
      split
      · rfl
      · rfl

theorem commit_spec (h : db.commit library changed added = some db') :
    db'.libraries = db.libraries ++ library.toList ∧
      ∃ news : List ItemRow, db'.items = db.items.map (rewrite changed) ++ news ∧
        news.map (·.toNewItem) = added := by
  rw [Database.commit] at h
  split at h
  · cases h
    exact ⟨rfl, _, rfl, number_map ..⟩
  · cases h

/-- An item that is there already is not added again. -/
theorem not_stored_of_commit (h : db.commit library [] added = some db') {new : NewItem}
    (hnew : new ∈ added) {embyId : Text} (hid : new.embyId = some embyId) :
    ∀ row ∈ db.items, row.embyId ≠ some embyId := by
  intro row hrow hsame
  obtain ⟨-, news, hitems, rfl⟩ := commit_spec h
  obtain ⟨newRow, hnewRow, rfl⟩ := List.mem_map.mp hnew
  have hunique := db'.consistent.2.1
  rw [hitems, List.filterMap_append, List.nodup_append] at hunique
  refine hunique.2.2 embyId ?_ embyId ?_ rfl
  · exact List.mem_filterMap.mpr ⟨row, List.mem_map.mpr ⟨row, hrow, rewrite_nil row⟩, hsame⟩
  · exact List.mem_filterMap.mpr ⟨newRow, hnewRow, hid⟩

end Tables

section Records

/-- A new record carries the item's id, the record of a row the row's key. -/
theorem itemRecord_spec {existing : Option ItemRow} {record : NewItem ⊕ ItemRow}
    (h : itemRecord env libraryId item existing file now = .ok record) :
    (∃ new, record = .inl new ∧ existing = none ∧ new.embyId = item.id ∧ new.libraryId = libraryId) ∨
      ∃ row old, record = .inr row ∧ existing = some old ∧ row.key = old.key := by
  rw [itemRecord] at h
  cases hid : item.id with
  | none =>
      rw [hid] at h
      cases h
  | some embyId =>
      simp only [hid] at h
      cases hcode : extractPickcode env item file with
      | error e =>
          rw [hcode] at h
          cases h
      | ok pickcode =>
          rw [hcode] at h
          cases existing with
          | none =>
              cases h
              exact .inl ⟨_, rfl, rfl, rfl, rfl⟩
          | some old =>
              cases h
              exact .inr ⟨_, old, rfl, rfl, rfl⟩

/-- The library 0 is none, so that a webhook adds no row. -/
theorem processItem_zero (h : db.processItem env 0 item file now = some db') :
    db'.libraries = db.libraries ∧ db'.items.map (·.key) = db.items.map (·.key) := by
  rw [Database.processItem] at h
  cases hrecord : itemRecord env 0 item (db.items.find? (·.embyId = item.id)) file now with
  | error e =>
      rw [hrecord] at h
      cases h
  | ok record =>
      rw [hrecord] at h
      obtain ⟨new, rfl, -, -, hzero⟩ | ⟨row, old, rfl, -, -⟩ := itemRecord_spec hrecord
      · obtain ⟨hlibraries, news, hitems, hnews⟩ := commit_spec h
        obtain ⟨newRow, rest, rfl⟩ := List.exists_cons_of_ne_nil
          (List.ne_nil_of_length_pos (l := news) (by rw [← List.length_map, hnews]; exact Nat.one_pos))
        rw [List.map_cons, List.cons.injEq] at hnews
        have hforeign := db'.consistent.2.2 newRow (by rw [hitems]; simp)
        obtain ⟨library, -, hlibrary⟩ := List.mem_map.mp hforeign
        have hpos := library.id_pos
        rw [hlibrary, hnews.1, hzero] at hpos
        cases hpos
      · obtain ⟨hlibraries, news, hitems, hnews⟩ := commit_spec h
        obtain rfl := List.map_eq_nil_iff.mp hnews
        refine ⟨by simpa using hlibraries, ?_⟩
        rw [hitems, List.append_nil, List.map_map]
        exact List.map_congr_left fun row _ => rewrite_key ..

/-- No webhook adds a row or changes the libraries. -/
theorem write_spec (env : SyncEnv) (event : LibraryEvent) (db : Database) :
    (event.write env db).libraries = db.libraries ∧
      ((event.write env db).items.map (·.key)).Sublist (db.items.map (·.key)) := by
  cases event with
  | libraryNew item file now =>
      rw [LibraryEvent.write]
      cases hprocess : db.processItem env 0 item file now with
      | none => exact ⟨rfl, .refl _⟩
      | some db' =>
          obtain ⟨hlibraries, hkeys⟩ := processItem_zero hprocess
          refine ⟨hlibraries, ?_⟩
          rw [Option.getD_some, hkeys]
  | libraryDeleted item =>
      rw [LibraryEvent.write]
      cases item.id with
      | none => exact ⟨rfl, .refl _⟩
      | some embyId => exact ⟨rfl, List.filter_sublist.map _⟩
  | _ => exact ⟨rfl, .refl _⟩

end Records

section Moves

/-- No error of `_process_item_optimized` is to come from the item. -/
def Item.Readable (item : Item) : Prop :=
  item.path ≠ .null ∧ ∃ sources, item.mediaSources = some sources ∧ ∀ source ∈ sources, source.path ≠ .null

theorem Field.exists_get {field : Field} (h : field ≠ .null) (default : Text) :
    ∃ text, field.get default = some text := by
  cases field with
  | absent => exact ⟨default, rfl⟩
  | null => exact absurd rfl h
  | text value => exact ⟨value, rfl⟩

theorem sourcePickcode_ok {sources : List MediaSource} (h : ∀ source ∈ sources, source.path ≠ .null) :
    ∃ pickcode, sourcePickcode sources = .ok pickcode := by
  induction sources with
  | nil => exact ⟨none, rfl⟩
  | cons source rest ih =>
      obtain ⟨path, hpath⟩ := Field.exists_get (h source (List.mem_cons_self ..)) []
      rw [sourcePickcode, hpath]
      dsimp only
      cases afterLast pickcodeMark path with
      | some code => exact ⟨_, rfl⟩
      | none => exact ih fun source hsource => h source (List.mem_cons_of_mem _ hsource)

theorem Item.Readable.extractPickcode (h : item.Readable) (env : SyncEnv) (file : Option Text) :
    ∃ pickcode, extractPickcode env item file = .ok pickcode := by
  obtain ⟨hpath, sources, hsources, hnull⟩ := h
  obtain ⟨path, hpath⟩ := Field.exists_get hpath []
  rw [LibrarySync.extractPickcode, hpath]
  dsimp only
  cases truthy (extractFileIdFromProxyUrl path) with
  | some fileId => exact ⟨_, rfl⟩
  | none =>
      dsimp only
      split
      · exact ⟨_, rfl⟩
      · rw [hsources]
        exact sourcePickcode_ok hnull

theorem Item.Readable.record (h : item.Readable) (env : SyncEnv) (libraryId : ℕ)
    (file : Option Text) (now : ℕ) {embyId : Text} (hid : item.id = some embyId)
    (existing : Option ItemRow) :
    ∃ record, itemRecord env libraryId item existing file now = .ok record := by
  obtain ⟨pickcode, hcode⟩ := h.extractPickcode env file
  rw [itemRecord, hid]
  dsimp only
  rw [hcode]
  cases existing with
  | none => exact ⟨_, rfl⟩
  | some row => exact ⟨_, rfl⟩

/-- The count of a processed item. -/
def Stats.count (stats : Stats) (added : Bool) : Stats :=
  if added then { stats with items := stats.items + 1, new := stats.new + 1 }
  else { stats with items := stats.items + 1, failed := stats.failed + 1 }

/-- The library of a stage. -/
def SyncStage.recordId : SyncStage → Option ℕ
  | .views => none
  | .listing libraryId _ | .batches libraryId _ | .items libraryId .. => some libraryId

/-- The rows that a stage has looked up. -/
def SyncStage.existing : SyncStage → List (PyKey × ItemRow)
  | .items _ existing _ _ => existing
  | _ => []

@[simp] theorem within_recordId (libraryId : ℕ) (existing : List (PyKey × ItemRow))
    (rest : List (List Item)) (batch : List Item) :
    (SyncStage.within libraryId existing rest batch).recordId = some libraryId := by
  cases batch with
  | nil => rfl
  | cons item batch => rfl

/-- All rows of a dictionary stand under their primary keys. -/
def ByPrimaryKey (rows : List (PyKey × ItemRow)) : Prop := ∀ row ∈ rows, ∃ id, row.1 = .int id

theorem ByPrimaryKey.lookup {rows : List (PyKey × ItemRow)} (h : ByPrimaryKey rows) (embyId : Text) :
    rows.lookup (.str embyId) = none := by
  rw [List.lookup_eq_none_iff]
  intro row hrow
  obtain ⟨id, hid⟩ := h row hrow
  rw [hid]
  rfl

theorem batchGetByIds_byPrimaryKey (db : Database) (ids : List Text) :
    ByPrimaryKey (db.batchGetByIds env ids) := by
  intro row hrow
  obtain ⟨row, -, rfl⟩ := List.mem_map.mp hrow
  exact ⟨row.id, rfl⟩

/-- What an event of the sync at work does to the database, the sync and the reports, when the sync
changes no row. -/
inductive Moves (env : SyncEnv) (db : Database) (run : Sync) :
    LibraryEvent → Database → Option Sync → List Stats → Prop
  | closed (event : LibraryEvent) : Moves env db run event db none []
  | finished (hviews : run.views = []) : Moves env db run .view db none [run.stats]
  | known {view : View} {rest : List View} {library : EmbyLibrary} (hstage : run.stage = .views)
      (hviews : run.views = view :: rest) (hlibrary : library ∈ db.libraries)
      (hid : view.id = some library.embyId) :
      Moves env db run .view db
        (some { run with views := rest, stage := .listing library.id library.embyId }) []
  | recorded {view : View} {rest : List View} {library : EmbyLibrary} {db' : Database}
      (hstage : run.stage = .views) (hviews : run.views = view :: rest)
      (hid : view.id = some library.embyId)
      (hnew : library.embyId ∉ db.libraries.map (·.embyId))
      (hnext : library.id = nextId (db.libraries.map (·.id)))
      (hcommit : db.commit (some library) [] run.added = some db') :
      Moves env db run .view db'
        (some { run with views := rest, stage := .listing library.id library.embyId, added := [] }) []
  | listed {libraryId : ℕ} {parentId : Text} (hstage : run.stage = .listing libraryId parentId)
      (items : List Item) :
      Moves env db run (.listed items) db
        (some { run with stage := .batches libraryId (Paging.batches items 100) }) []
  | left {libraryId : ℕ} (hstage : run.stage = .batches libraryId []) :
      Moves env db run .batch db (some { run with stage := .views }) []
  | batch {libraryId : ℕ} {batch : List Item} {rest : List (List Item)} {ids : List Text}
      (hstage : run.stage = .batches libraryId (batch :: rest)) :
      Moves env db run .batch db
        (some { run with stage := .within libraryId (db.batchGetByIds env ids) rest batch }) []
  | processed {libraryId : ℕ} {existing : List (PyKey × ItemRow)} {item : Item} {batch : List Item}
      {rest : List (List Item)} {new : Option NewItem}
      (hstage : run.stage = .items libraryId existing (item :: batch) rest) (file : Option Text)
      (now : ℕ) (hnew : ∀ record ∈ new, record.embyId = item.id ∧ record.libraryId = libraryId)
      (hreadable : ∀ embyId, item.id = some embyId → item.Readable → new.isSome) :
      Moves env db run (.process file now) db
        (some { run with
          added := run.added ++ new.toList, stats := run.stats.count new.isSome,
          stage := .within libraryId existing rest batch }) []

theorem takeView_moves (env : SyncEnv) {s : LibrarySystem} {run : Sync} {view : View} {rest : List View}
    (hchanged : run.changed = []) (hstage : run.stage = .views) (hviews : run.views = view :: rest) :
    Moves env s.db run .view (s.takeView run view rest).db (s.takeView run view rest).sync [] ∧
      (s.takeView run view rest).reports = s.reports := by
  rw [LibrarySystem.takeView]
  split
  next embyId name hid hname =>
    split
    next library hfind =>
      have hfound := List.find?_some hfind
      rw [decide_eq_true_iff] at hfound
      rw [← hfound]
      exact ⟨.known hstage hviews (List.mem_of_find?_eq_some hfind) (hid.trans (by rw [hfound])), rfl⟩
    next hfind =>
      dsimp only
      split
      next => exact ⟨.closed _, rfl⟩
      next db' hcommit =>
        rw [hchanged] at hcommit
        have hnew : embyId ∉ s.db.libraries.map (·.embyId) := by
          intro hmem
          obtain ⟨library, hlibrary, hsame⟩ := List.mem_map.mp hmem
          exact absurd (decide_eq_true hsame) (by simpa using List.find?_eq_none.mp hfind library hlibrary)
        have hmoves : Moves env s.db run .view db' _ [] :=
          .recorded hstage hviews hid hnew rfl hcommit
        rw [hchanged] at hmoves
        exact ⟨hmoves, rfl⟩
  next => exact ⟨.closed _, rfl⟩

theorem processItem_moves {run : Sync} {libraryId : ℕ} {existing : List (PyKey × ItemRow)}
    {batch : List Item} {rest : List (List Item)} (hkeys : ByPrimaryKey existing)
    (hstage : run.stage = .items libraryId existing (item :: batch) rest) :
    Moves env db run (.process file now) db
      (some { run.processItemOptimized env libraryId existing item file now with
        stage := .within libraryId existing rest batch }) [] := by
  have hnone : (item.id.bind fun id => existing.lookup (.str id)) = none := by
    cases item.id with
    | none => rfl
    | some embyId => exact hkeys.lookup embyId
  rw [Sync.processItemOptimized, hnone]
  dsimp only
  cases hrecord : itemRecord env libraryId item none file now with
  | error e =>
      have hunreadable : ∀ embyId, item.id = some embyId → item.Readable →
          (none : Option NewItem).isSome := by
        intro embyId hid hreadable
        obtain ⟨record, hok⟩ := hreadable.record env libraryId file now hid none
        rw [hrecord] at hok
        cases hok
      have hmoves : Moves env db run (.process file now) db _ [] :=
        .processed hstage file now (fun _ hnone => by cases hnone) hunreadable
      simpa [Stats.count] using hmoves
  | ok record =>
      obtain ⟨new, rfl, -, hid, hlibrary⟩ | ⟨row, old, rfl, hold, -⟩ := itemRecord_spec hrecord
      · have hadded : ∀ record ∈ some new, record.embyId = item.id ∧ record.libraryId = libraryId :=
          fun record hsome => Option.some.inj hsome ▸ ⟨hid, hlibrary⟩
        have hmoves : Moves env db run (.process file now) db _ [] :=
          .processed hstage file now hadded fun _ _ _ => rfl
        simpa [Stats.count] using hmoves
      · cases hold

theorem advance_moves {s s' : LibrarySystem} {run : Sync} {event : LibraryEvent}
    (hchanged : run.changed = []) (hkeys : ByPrimaryKey run.stage.existing)
    (h : s.advance env run event = some s') :
    ∃ reports, Moves env s.db run event s'.db s'.sync reports ∧ s'.reports = s.reports ++ reports := by
  unfold LibrarySystem.advance at h
  split at h
  next hstage =>
    split at h
    next hviews =>
      cases h
      exact ⟨_, .finished hviews, rfl⟩
    next view rest hviews =>
      cases h
      obtain ⟨hmoves, hreports⟩ := takeView_moves env hchanged hstage hviews
      exact ⟨_, hmoves, by rw [hreports, List.append_nil]⟩
  next items libraryId parentId hstage =>
    cases h
    exact ⟨_, .listed hstage items, (List.append_nil _).symm⟩
  next libraryId hstage =>
    cases h
    exact ⟨_, .left hstage, (List.append_nil _).symm⟩
  next libraryId batch rest hstage =>
    split at h
    · cases h
      exact ⟨_, .closed _, (List.append_nil _).symm⟩
    · cases h
      exact ⟨_, .batch hstage, (List.append_nil _).symm⟩
  next file now libraryId existing item batch rest hstage =>
    cases h
    rw [hstage] at hkeys
    exact ⟨_, processItem_moves hkeys hstage, (List.append_nil _).symm⟩
  next =>
    cases h
    exact ⟨_, .closed _, (List.append_nil _).symm⟩
  next => cases h

end Moves

section Runs
variable {s s' t : LibrarySystem} {run : Sync} {event : LibraryEvent} {events : List LibraryEvent}
  {sync' : Option Sync} {reports : List Stats}

/-- Every item is of a library that is not the one recorded last. -/
def Database.Older (db : Database) : Prop :=
  ∀ item ∈ db.items, ∃ library ∈ db.libraries, item.libraryId < library.id

/-- What holds of a sync between its steps. -/
structure Sync.Sound (db : Database) (run : Sync) : Prop where
  changed : run.changed = []
  keys : ByPrimaryKey run.stage.existing
  added : ∀ new ∈ run.added, new.libraryId ∈ db.libraries.map (·.id)
  stage : ∀ libraryId, run.stage.recordId = some libraryId → libraryId ∈ db.libraries.map (·.id)

def LibrarySystem.Sound (s : LibrarySystem) : Prop := ∀ run, s.sync = some run → run.Sound s.db

theorem step_cases (h : s.step env event = some s') :
    (∃ views, event = .begin views ∧
        s' = if s.sync.isSome then s else s.go { views, stats := { libraries := views.length } }) ∨
      s' = { s with db := event.write env s.db } ∨
      ∃ run, s.sync = some run ∧ s.advance env run event = some s' ∧ event.write env s.db = s.db := by
  cases event with
  | begin views => exact .inl ⟨views, rfl, (Option.some.inj h).symm⟩
  | libraryNew item file now => exact .inr (.inl (Option.some.inj h).symm)
  | libraryDeleted item => exact .inr (.inl (Option.some.inj h).symm)
  | _ =>
      obtain ⟨run, hrun, hadvance⟩ := Option.bind_eq_some_iff.mp h
      exact .inr (.inr ⟨run, hrun, hadvance, rfl⟩)

theorem Moves.older (hmoves : Moves env db run event db' sync' reports) (hrun : run.Sound db)
    (h : db.Older) : db'.Older := by
  cases hmoves with
  | @recorded view rest library _ hstage hviews hid hnew hnext hcommit =>
      obtain ⟨hlibraries, news, hitems, hnews⟩ := commit_spec hcommit
      intro item hitem
      rw [hitems, List.mem_append] at hitem
      rw [hlibraries]
      rcases hitem with hold | hadded
      · obtain ⟨row, hrow, rfl⟩ := List.mem_map.mp hold
        obtain ⟨older, holder, hlt⟩ := h row hrow
        exact ⟨older, List.mem_append_left _ holder, hlt⟩
      · -- what the session holds is of libraries that were recorded before
        have hmem := hrun.added item.toNewItem (hnews ▸ List.mem_map_of_mem hadded)
        refine ⟨library, by simp, ?_⟩
        rw [hnext]
        exact lt_nextId hmem
  | _ => exact h

theorem Moves.sound (hmoves : Moves env db run event db' sync' reports) (hrun : run.Sound db) :
    ∀ run', sync' = some run' → run'.Sound db' := by
  intro run' hsome
  cases hmoves with
  | closed => cases hsome
  | finished => cases hsome
  | @known view rest library hstage hviews hlibrary hid =>
      cases hsome
      refine ⟨hrun.changed, nofun, hrun.added, ?_⟩
      rintro libraryId ⟨⟩
      exact List.mem_map_of_mem hlibrary
  | @recorded view rest library _ hstage hviews hid hnew hnext hcommit =>
      cases hsome
      obtain ⟨hlibraries, -⟩ := commit_spec hcommit
      refine ⟨hrun.changed, nofun, nofun, ?_⟩
      rintro libraryId ⟨⟩
      rw [hlibraries]
      exact List.mem_map_of_mem (by simp)
  | @listed libraryId parentId hstage items =>
      cases hsome
      refine ⟨hrun.changed, nofun, hrun.added, ?_⟩
      rintro _ ⟨⟩
      exact hrun.stage libraryId (by rw [hstage]; rfl)
  | left hstage =>
      cases hsome
      exact ⟨hrun.changed, nofun, hrun.added, nofun⟩
  | @batch libraryId batch rest ids hstage =>
      cases hsome
      refine ⟨hrun.changed, ?_, hrun.added, ?_⟩
      · cases batch with
        | nil => nofun
        | cons item batch => exact batchGetByIds_byPrimaryKey db ids
      · intro id hid
        rw [within_recordId] at hid
        cases hid
        exact hrun.stage libraryId (by rw [hstage]; rfl)
  | @processed libraryId existing item batch rest new hstage file now hnew hreadable =>
      cases hsome
      have hknown : libraryId ∈ db.libraries.map (·.id) :=
        hrun.stage libraryId (by rw [hstage]; rfl)
      refine ⟨hrun.changed, ?_, ?_, ?_⟩
      · have hkeys := hrun.keys
        rw [hstage] at hkeys
        cases batch with
        | nil => nofun
        | cons item batch => exact hkeys
      · intro record hrecord
        rcases List.mem_append.mp hrecord with hold | hadded
        · exact hrun.added record hold
        · rw [(hnew record (Option.mem_toList.mp hadded)).2]
          exact hknown
      · intro id hid
        rw [within_recordId] at hid
        cases hid
        exact hknown

theorem Sync.Sound.of_libraries (h : run.Sound db) (hlibraries : db'.libraries = db.libraries) :
    run.Sound db' :=
  ⟨h.changed, h.keys, by rw [hlibraries]; exact h.added, by rw [hlibraries]; exact h.stage⟩

theorem Database.Older.write (h : db.Older) : (event.write env db).Older := by
  obtain ⟨hlibraries, hkeys⟩ := write_spec env event db
  intro item hitem
  obtain ⟨row, hrow, hkey⟩ := List.mem_map.mp (hkeys.subset (List.mem_map_of_mem hitem))
  obtain ⟨older, holder, hlt⟩ := h row hrow
  rw [hlibraries]
  have hlibrary : row.libraryId = item.libraryId := congrArg (·.2.2) hkey
  exact ⟨older, holder, hlibrary ▸ hlt⟩

theorem step_sound (h : s.Sound) (hstep : s.step env event = some s') : s'.Sound := by
  obtain ⟨views, rfl, rfl⟩ | rfl | ⟨run, hrun, hadvance, -⟩ := step_cases hstep
  · split
    · exact h
    · rintro run ⟨⟩
      exact ⟨rfl, nofun, nofun, nofun⟩
  · exact fun run hrun => (h run hrun).of_libraries (write_spec env event s.db).1
  · obtain ⟨reports, hmoves, -⟩ := advance_moves (h run hrun).changed (h run hrun).keys hadvance
    exact hmoves.sound (h run hrun)

theorem step_older (h : s.Sound) (holder : s.db.Older) (hstep : s.step env event = some s') :
    s'.db.Older := by
  obtain ⟨views, rfl, rfl⟩ | rfl | ⟨run, hrun, hadvance, -⟩ := step_cases hstep
  · split
    · exact holder
    · exact holder
  · exact holder.write
  · obtain ⟨reports, hmoves, -⟩ := advance_moves (h run hrun).changed (h run hrun).keys hadvance
    exact hmoves.older (h run hrun) holder

/-- However syncs and webhooks take turns, no item of the library recorded last is stored: with a
single library, nothing ever is. -/
theorem newest_library_is_empty
    (hrun : PartialRun.exec (LibrarySystem.step env) {} events = some s) :
    ∀ item ∈ s.db.items, ∃ library ∈ s.db.libraries, item.libraryId < library.id := by
  have hinv : s.Sound ∧ s.db.Older :=
    PartialRun.invariant_of_step (I := fun s : LibrarySystem => s.Sound ∧ s.db.Older)
      (fun s event s' h hstep => ⟨step_sound h.1 hstep, step_older h.1 h.2 hstep⟩)
      ⟨by rintro run ⟨⟩, by rintro item ⟨⟩⟩ hrun
  exact hinv.2

/-- What the notification of a sync says: it updated nothing, and all that it read is new. -/
def Stats.AllNew (stats : Stats) : Prop :=
  stats.updated = 0 ∧ stats.new + stats.failed = stats.items

theorem Stats.AllNew.count {stats : Stats} (h : stats.AllNew) (added : Bool) :
    (stats.count added).AllNew := by
  obtain ⟨hupdated, hsum⟩ := h
  cases added with
  | false => exact ⟨hupdated, by dsimp only [Stats.count]; rw [← hsum]; rfl⟩
  | true => exact ⟨hupdated, by dsimp only [Stats.count]; rw [← hsum, if_pos rfl, Nat.add_right_comm]⟩

theorem Moves.allNew (hmoves : Moves env db run event db' sync' reports) (h : run.stats.AllNew) :
    (∀ run', sync' = some run' → run'.stats.AllNew) ∧ ∀ report ∈ reports, report.AllNew := by
  cases hmoves with
  | closed => exact ⟨nofun, nofun⟩
  | finished => exact ⟨nofun, fun report hreport => List.mem_singleton.mp hreport ▸ h⟩
  | processed =>
      refine ⟨?_, nofun⟩
      rintro run' ⟨⟩
      exact h.count _
  | _ =>
      refine ⟨?_, nofun⟩
      rintro run' ⟨⟩
      exact h

theorem reports_allNew (hidle : s.sync = none)
    (hrun : PartialRun.exec (LibrarySystem.step env) s events = some t) :
    ∃ reports, t.reports = s.reports ++ reports ∧ ∀ report ∈ reports, report.AllNew := by
  let Kept (s' : LibrarySystem) : Prop :=
    s'.Sound ∧ (∀ run, s'.sync = some run → run.stats.AllNew) ∧
      ∃ reports, s'.reports = s.reports ++ reports ∧ ∀ report ∈ reports, report.AllNew
  have hstart : Kept s := by
    refine ⟨?_, ?_, [], (List.append_nil _).symm, nofun⟩
    · rw [LibrarySystem.Sound, hidle]
      nofun
    · rw [hidle]
      nofun
  have hstep : ∀ s₁ event s₂, Kept s₁ → s₁.step env event = some s₂ → Kept s₂ := by
    rintro s₁ event s₂ ⟨hsound, hcounted, said, hsaid, hall⟩ hstep
    refine ⟨step_sound hsound hstep, ?_⟩
    obtain ⟨views, rfl, rfl⟩ | rfl | ⟨run, hrun, hadvance, -⟩ := step_cases hstep
    · split
      · exact ⟨hcounted, said, hsaid, hall⟩
      · refine ⟨?_, said, hsaid, hall⟩
        rintro run ⟨⟩
        exact ⟨rfl, rfl⟩
    · exact ⟨hcounted, said, hsaid, hall⟩
    · obtain ⟨reports, hmoves, hreports⟩ :=
        advance_moves (hsound run hrun).changed (hsound run hrun).keys hadvance
      obtain ⟨hnext, hnew⟩ := hmoves.allNew (hcounted run hrun)
      refine ⟨hnext, said ++ reports, by rw [hreports, hsaid, List.append_assoc], ?_⟩
      intro report hreport
      rcases List.mem_append.mp hreport with hold | hreport
      · exact hall report hold
      · exact hnew report hreport
  exact (PartialRun.invariant_of_step hstep hstart hrun).2.2

/-- The views have records. -/
def AllRecorded (db : Database) (views : List View) : Prop :=
  ∀ view ∈ views, ∀ embyId, view.id = some embyId → embyId ∈ db.libraries.map (·.embyId)

theorem Moves.unnoticed (hmoves : Moves env db run event db' sync' reports)
    (h : AllRecorded db run.views) :
    db' = db ∧ ∀ run', sync' = some run' → AllRecorded db run'.views := by
  cases hmoves with
  | closed => exact ⟨rfl, nofun⟩
  | finished => exact ⟨rfl, nofun⟩
  | @known view rest library hstage hviews hlibrary hid =>
      refine ⟨rfl, ?_⟩
      rintro run' ⟨⟩
      rw [hviews] at h
      exact fun view hview => h view (List.mem_cons_of_mem _ hview)
  | @recorded view rest library _ hstage hviews hid hnew hnext hcommit =>
      exact absurd (h view (by rw [hviews]; exact List.mem_cons_self ..) library.embyId hid) hnew
  | _ =>
      refine ⟨rfl, ?_⟩
      rintro run' ⟨⟩
      exact h

theorem run_unnoticed (hsound : s.Sound)
    (hsync : ∀ run, s.sync = some run → AllRecorded s.db run.views)
    (hviews : ∀ views, .begin views ∈ events → AllRecorded s.db views)
    (hrun : PartialRun.exec (LibrarySystem.step env) s events = some t) :
    t.db = events.foldl (LibraryEvent.write env) s.db := by
  induction events generalizing s with
  | nil => exact congrArg _ (Option.some.inj hrun).symm
  | cons event events ih =>
      obtain ⟨u, hstep, hrest⟩ := PartialRun.exec_cons_eq_some.mp hrun
      have hwrite : u.db = event.write env s.db ∧
          ∀ run, u.sync = some run → AllRecorded s.db run.views := by
        obtain ⟨views, rfl, rfl⟩ | rfl | ⟨run, hrun, hadvance, hnone⟩ := step_cases hstep
        · split
          · exact ⟨rfl, hsync⟩
          · refine ⟨rfl, ?_⟩
            rintro run ⟨⟩
            exact hviews views (List.mem_cons_self ..)
        · exact ⟨rfl, hsync⟩
        · obtain ⟨reports, hmoves, -⟩ :=
            advance_moves (hsound run hrun).changed (hsound run hrun).keys hadvance
          obtain ⟨hdb, hnext⟩ := hmoves.unnoticed (hsync run hrun)
          exact ⟨hdb.trans hnone.symm, hnext⟩
      obtain ⟨hdb, hnext⟩ := hwrite
      have hlibraries : u.db.libraries = s.db.libraries := hdb ▸ (write_spec env event s.db).1
      have hrecorded (views : List View) : AllRecorded s.db views → AllRecorded u.db views := by
        rw [AllRecorded, AllRecorded, hlibraries]
        exact id
      rw [List.foldl_cons, ← hdb]
      exact ih (step_sound hsound hstep) (fun run hrun => hrecorded _ (hnext run hrun))
        (fun views hmem => hrecorded _ (hviews views (List.mem_cons_of_mem _ hmem))) hrest

theorem foldl_write_sublist (events : List LibraryEvent) (db : Database) :
    ((events.foldl (LibraryEvent.write env) db).items.map (·.key)).Sublist (db.items.map (·.key)) := by
  induction events generalizing db with
  | nil => exact .refl _
  | cons event events ih => exact (ih _).trans (write_spec env event db).2

section Blocked
variable {u v e : Text}

/-- The second of two libraries comes after the first wherever it is listed. -/
def ListedAfter (u v : Text) (views : List View) : Prop :=
  ∀ front view back, views = front ++ view :: back → view.id = some v →
    ∃ other ∈ front, other.id = some u

/-- The items of a stage that are still to come. -/
def SyncStage.remaining : SyncStage → List Item
  | .views | .listing .. => []
  | .batches _ rest => rest.flatten
  | .items _ _ batch rest => batch ++ rest.flatten

@[simp] theorem within_remaining (libraryId : ℕ) (existing : List (PyKey × ItemRow))
    (rest : List (List Item)) (batch : List Item) :
    (SyncStage.within libraryId existing rest batch).remaining = batch ++ rest.flatten := by
  cases batch with
  | nil => rfl
  | cons item batch => rfl

/-- A readable item with the id. -/
def Item.IsCopy (e : Text) (item : Item) : Prop := item.id = some e ∧ item.Readable

/-- The session holds the item, or will before it reaches the library `v`. -/
def Sync.Coming (u v e : Text) (run : Sync) : Prop :=
  (∃ new ∈ run.added, new.embyId = some e) ∨ (∃ libraryId, run.stage = .listing libraryId u) ∨
    (∃ item ∈ run.stage.remaining, item.IsCopy e) ∨ ListedAfter u v run.views

/-- Emby lists `v` after `u`, and the item in `u`; nobody deletes the item. -/
def Persists (u v e : Text) (s : LibrarySystem) : LibraryEvent → Prop
  | .begin views => ListedAfter u v views
  | .listed items => ∀ run libraryId, s.sync = some run → run.stage = .listing libraryId u →
      ∃ item ∈ items, item.IsCopy e
  | .libraryDeleted item => item.id ≠ some e
  | _ => True

def Database.Stored (db : Database) (e : Text) : Prop := ∃ row ∈ db.items, row.embyId = some e

theorem ListedAfter.tail {view : View} {rest : List View} (h : ListedAfter u v (view :: rest))
    (hview : view.id ≠ some u) : ListedAfter u v rest := by
  rintro front other back rfl hid
  obtain ⟨earlier, hmem, hearlier⟩ := h (view :: front) other back rfl hid
  rcases List.mem_cons.mp hmem with rfl | hmem
  · exact absurd hearlier hview
  · exact ⟨earlier, hmem, hearlier⟩

/-- Where the next view is taken, the session holds the item or the view is not `v`. -/
theorem Sync.Coming.next {view : View} {rest : List View} (h : run.Coming u v e)
    (hstage : run.stage = .views) (hviews : run.views = view :: rest) :
    (∃ new ∈ run.added, new.embyId = some e) ∨
      view.id ≠ some v ∧ (view.id = some u ∨ ListedAfter u v rest) := by
  rcases h with hadded | ⟨libraryId, hlisting⟩ | ⟨item, hitem, -⟩ | hafter
  · exact .inl hadded
  · rw [hstage] at hlisting
    cases hlisting
  · rw [hstage] at hitem
    cases hitem
  · rw [hviews] at hafter
    refine .inr ⟨fun hv => ?_, ?_⟩
    · obtain ⟨other, hmem, -⟩ := hafter [] view rest rfl hv
      cases hmem
    · by_cases hu : view.id = some u
      · exact .inl hu
      · exact .inr (hafter.tail hu)

theorem Database.Stored.write (h : db.Stored e) (hpersists : Persists u v e s event) :
    (event.write env db).Stored e := by
  obtain ⟨row, hrow, hid⟩ := h
  cases event with
  | libraryNew item file now =>
      rw [LibraryEvent.write]
      cases hprocess : db.processItem env 0 item file now with
      | none => exact ⟨row, hrow, hid⟩
      | some db' =>
          have hkey : row.key ∈ db'.items.map (·.key) :=
            (processItem_zero hprocess).2 ▸ List.mem_map_of_mem hrow
          obtain ⟨row', hrow', hsame⟩ := List.mem_map.mp hkey
          have hembyId : row'.embyId = row.embyId := congrArg (·.2.1) hsame
          exact ⟨row', hrow', hembyId.trans hid⟩
  | libraryDeleted item =>
      rw [LibraryEvent.write]
      cases hitem : item.id with
      | none => exact ⟨row, hrow, hid⟩
      | some embyId =>
          refine ⟨row, List.mem_filter.mpr ⟨hrow, decide_eq_true fun hsame => ?_⟩, hid⟩
          exact hpersists (hitem.trans (hsame.symm.trans hid))
  | _ => exact ⟨row, hrow, hid⟩

/-- A commit would add the stored item once more; so the item blocks every commit until `v`. -/
theorem Moves.blocked (hmoves : Moves env db run event db' sync' reports) (hsync : s.sync = some run)
    (hstored : db.Stored e) (hnew : v ∉ db.libraries.map (·.embyId)) (h : run.Coming u v e)
    (hpersists : Persists u v e s event) :
    db'.Stored e ∧ v ∉ db'.libraries.map (·.embyId) ∧ ∀ run', sync' = some run' → run'.Coming u v e := by
  cases hmoves with
  | closed => exact ⟨hstored, hnew, nofun⟩
  | finished => exact ⟨hstored, hnew, nofun⟩
  | @known view rest library hstage hviews hlibrary hid =>
      refine ⟨hstored, hnew, ?_⟩
      rintro run' ⟨⟩
      obtain hadded | ⟨-, hu | hafter⟩ := h.next hstage hviews
      · exact .inl hadded
      · exact .inr (.inl ⟨library.id, by rw [Option.some.inj (hid.symm.trans hu)]⟩)
      · exact .inr (.inr (.inr hafter))
  | @recorded view rest library _ hstage hviews hid hfresh hnext hcommit =>
      obtain ⟨row, hrow, hrowId⟩ := hstored
      have hpending : ¬ ∃ new ∈ run.added, new.embyId = some e := fun ⟨new, hmem, hnewId⟩ =>
        not_stored_of_commit hcommit hmem hnewId row hrow hrowId
      obtain ⟨hlibraries, news, hitems, -⟩ := commit_spec hcommit
      obtain ⟨hview, hcoming⟩ := (h.next hstage hviews).resolve_left hpending
      refine ⟨⟨row, ?_, hrowId⟩, ?_, ?_⟩
      · rw [hitems]
        exact List.mem_append_left _ (List.mem_map.mpr ⟨row, hrow, rewrite_nil row⟩)
      · rw [hlibraries, List.map_append, List.mem_append]
        rintro (hold | hv)
        · exact hnew hold
        · obtain rfl : v = library.embyId := by simpa using hv
          exact hview hid
      · rintro run' ⟨⟩
        rcases hcoming with hu | hafter
        · exact .inr (.inl ⟨library.id, by rw [Option.some.inj (hid.symm.trans hu)]⟩)
        · exact .inr (.inr (.inr hafter))
  | @listed libraryId parentId hstage items =>
      refine ⟨hstored, hnew, ?_⟩
      rintro run' ⟨⟩
      rcases h with hadded | ⟨_, hlisting⟩ | ⟨item, hitem, -⟩ | hafter
      · exact .inl hadded
      · obtain ⟨item, hitem, hcopy⟩ := hpersists run _ hsync hlisting
        refine .inr (.inr (.inl ⟨item, ?_, hcopy⟩))
        rw [SyncStage.remaining, Paging.flatten_batches items (by decide)]
        exact hitem
      · rw [hstage] at hitem
        cases hitem
      · exact .inr (.inr (.inr hafter))
  | left hstage =>
      refine ⟨hstored, hnew, ?_⟩
      rintro run' ⟨⟩
      rcases h with hadded | ⟨_, hlisting⟩ | ⟨item, hitem, -⟩ | hafter
      · exact .inl hadded
      · rw [hstage] at hlisting
        cases hlisting
      · rw [hstage] at hitem
        cases hitem
      · exact .inr (.inr (.inr hafter))
  | @batch libraryId batch rest ids hstage =>
      refine ⟨hstored, hnew, ?_⟩
      rintro run' ⟨⟩
      rcases h with hadded | ⟨_, hlisting⟩ | hcopy | hafter
      · exact .inl hadded
      · rw [hstage] at hlisting
        cases hlisting
      · rw [hstage] at hcopy
        refine .inr (.inr (.inl ?_))
        rw [within_remaining]
        exact hcopy
      · exact .inr (.inr (.inr hafter))
  | @processed libraryId existing item batch rest new hstage file now hrecord hreadable =>
      refine ⟨hstored, hnew, ?_⟩
      rintro run' ⟨⟩
      rcases h with ⟨old, hold, hid⟩ | ⟨_, hlisting⟩ | ⟨copy, hcopy, hid, hread⟩ | hafter
      · exact .inl ⟨old, List.mem_append_left _ hold, hid⟩
      · rw [hstage] at hlisting
        cases hlisting
      · rw [hstage] at hcopy
        rcases List.mem_cons.mp hcopy with rfl | hcopy
        · obtain ⟨record, rfl⟩ := Option.isSome_iff_exists.mp (hreadable e hid hread)
          exact .inl ⟨record, by simp, ((hrecord record rfl).1).trans hid⟩
        · refine .inr (.inr (.inl ⟨copy, ?_, hid, hread⟩))
          rw [within_remaining]
          exact hcopy
      · exact .inr (.inr (.inr hafter))

end Blocked

section Sample

def sampleEnv : SyncEnv where
  selects id text := toString id = String.ofList text
  lowering := .ascii
  checks := ⟨fun _ => none, fun _ => none⟩

def sampleViews : List View := [⟨some ['m'], some ['M'], none⟩, ⟨some ['t'], some ['T'], none⟩]

def sampleItem : Item := { id := some ['7'], path := .text ['/', 'a'] }

/-- Two libraries, the first with an item. -/
def sampleSync (views : List View) : List LibraryEvent :=
  [.begin views, .view, .listed [sampleItem], .batch, .process none 3, .batch, .view, .listed [], .batch,
    .view]

/-- After the first sync. -/
def sampleSynced : LibrarySystem where
  db := {
    libraries := [⟨1, ['m'], ['M'], none, Nat.one_pos⟩, ⟨2, ['t'], ['T'], none, Nat.two_pos⟩]
    items := [{
      id := 1, embyId := some ['7'], name := none, type := none, path := some ['/', 'a'],
      pickcode := none, libraryId := 1, isStrm := false }]
    consistent := by decide }
  reports := [{ libraries := 2, items := 1, new := 1 }]

theorem sampleSync_run :
    PartialRun.exec (LibrarySystem.step sampleEnv) {} (sampleSync sampleViews) = some sampleSynced := by
  rfl

theorem sample_newest_is_empty : sampleSynced.db.items ≠ [] ∧
    ∀ item ∈ sampleSynced.db.items,
      ∃ library ∈ sampleSynced.db.libraries, item.libraryId < library.id :=
  ⟨List.cons_ne_nil _ _, newest_library_is_empty sampleSync_run⟩

/-- The same sync again, and a webhook for an item that is not stored. -/
def sampleAgain : List LibraryEvent :=
  sampleSync sampleViews ++ [.libraryNew { sampleItem with id := some ['8'] } none 5]

theorem sampleAgain_run : PartialRun.exec (LibrarySystem.step sampleEnv) sampleSynced sampleAgain =
    some { sampleSynced with reports := sampleSynced.reports ++ sampleSynced.reports } := by
  rfl

/-- Emby lists another library after the first one. -/
def sampleBlocked : List LibraryEvent :=
  (sampleSync [⟨some ['m'], some ['M'], none⟩, ⟨some ['n'], some ['N'], none⟩]).take 7

theorem sampleBlocked_run :
    PartialRun.exec (LibrarySystem.step sampleEnv) sampleSynced sampleBlocked = some sampleSynced := by
  rfl

theorem sampleBlocked_persists : PartialRun.Along (LibrarySystem.step sampleEnv)
    (Persists ['m'] ['n'] ['7']) sampleSynced sampleBlocked := by
  apply PartialRun.along_iff_split.mpr
  intro front event back hevents u hu
  have hmem : event ∈ sampleBlocked := hevents ▸ List.mem_append_right _ (List.mem_cons_self ..)
  simp only [sampleBlocked, sampleSync, List.take_succ_cons, List.take_zero, List.mem_cons,
    List.not_mem_nil, or_false] at hmem
  rcases hmem with rfl | rfl | rfl | rfl | rfl | rfl | rfl
  · intro front view back hviews hid
    match front with
    | [] =>
        cases hviews
        cases hid
    | other :: front =>
        obtain ⟨rfl, -⟩ := List.cons.inj hviews
        exact ⟨_, List.mem_cons_self, rfl⟩
  · trivial
  · exact fun _ _ _ _ => ⟨sampleItem, List.mem_cons_self, rfl, nofun, [], rfl, nofun⟩
  all_goals trivial

end Sample

end Runs

end SmartMedia.Emby.LibrarySync
