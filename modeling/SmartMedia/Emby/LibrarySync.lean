import SmartMedia.Emby.DeletePlan
import SmartMedia.Library.Paging
import SmartMedia.Library.PartialRun
import SmartMedia.Strm.StrmUrl

/-!
# The synchronization of the Emby libraries

`sync_library` of `app/services/integrations/emby.py`, which one task at a time runs, and the two
webhook events that write to the same table. The session of a sync does not flush before a
query, so that what it adds and changes reaches the database at the next commit only; a commit
keeps the unique columns and the foreign key (`PRAGMA foreign_keys=ON`) or changes nothing.
`created_at` and the columns that nobody sets are left out.
-/
namespace SmartMedia.Emby.LibrarySync
open PythonText Strm

/-- What SQLite and `str` do that the repository leaves to them. -/
structure SyncEnv where
  /-- Whether an integer column equals a text. -/
  selects : ℕ → Text → Bool
  lowering : Lowering
  checks : NetlocChecks

/-- A value that `dict.get` gives a default when it is absent, not when it is null. -/
inductive Field
  | absent
  | null
  | text (value : Text)
  deriving DecidableEq, Repr

def Field.get (default : Text) : Field → Option Text
  | .absent => some default
  | .null => none
  | .text value => some value

structure MediaSource where
  path : Field := .absent
  deriving DecidableEq, Repr

/-- An item as Emby lists it; `none` are sources that are null. -/
structure Item where
  id : Option Text
  name : Option Text := none
  type : Option Text := none
  path : Field := .absent
  mediaSources : Option (List MediaSource) := some []
  deriving DecidableEq, Repr

structure View where
  id : Option Text
  name : Option Text
  path : Option Text := none
  deriving DecidableEq, Repr

inductive Raised
  | keyError
  | typeError
  deriving DecidableEq, Repr

section Tables

/-- A row of `emby_libraries`; SQLite counts the ids from 1. -/
structure EmbyLibrary where
  id : ℕ
  embyId : Text
  name : Text
  path : Option Text
  id_pos : 0 < id
  deriving DecidableEq, Repr

/-- An item before the database has given it an id. -/
structure NewItem extends EmbyMediaItem where
  libraryId : ℕ
  isStrm : Bool
  updatedAt : Option ℕ := none
  deriving DecidableEq, Repr

/-- A row of `emby_media_items`. -/
structure ItemRow extends NewItem where
  id : ℕ
  deriving DecidableEq, Repr

/-- What the unique columns and the foreign key ask of the two tables. -/
def Consistent (libraries : List EmbyLibrary) (items : List ItemRow) : Prop :=
  (libraries.map (·.embyId)).Nodup ∧ (items.filterMap (·.embyId)).Nodup ∧
    ∀ item ∈ items, item.libraryId ∈ libraries.map (·.id)

instance (libraries : List EmbyLibrary) (items : List ItemRow) : Decidable (Consistent libraries items) :=
  inferInstanceAs (Decidable (_ ∧ _ ∧ _))

structure Database where
  libraries : List EmbyLibrary := []
  items : List ItemRow := []
  consistent : Consistent libraries items := by simp [Consistent]

/-- The table as the delete plans read it. -/
def Database.media (db : Database) : MediaTable where
  rows := db.items.map (·.toEmbyMediaItem)
  unique := by
    rw [List.filterMap_map]
    exact db.consistent.2.1

/-- The id that SQLite gives to the next row. -/
def nextId (ids : List ℕ) : ℕ := ids.foldr max 0 + 1

def number : ℕ → List NewItem → List ItemRow
  | _, [] => []
  | id, item :: rest => { item with id } :: number (id + 1) rest

/-- The updates of a flush, on one row. -/
def rewrite (changed : List ItemRow) (row : ItemRow) : ItemRow :=
  changed.foldl (fun row new =>
    if new.id = row.id then
      { row with name := new.name, path := new.path, pickcode := new.pickcode, updatedAt := new.updatedAt }
    else row) row

/-- `db.commit()`: `none` is an error, after which the transaction is rolled back. -/
def Database.commit (db : Database) (library : Option EmbyLibrary) (changed : List ItemRow)
    (added : List NewItem) : Option Database :=
  let libraries : List EmbyLibrary := db.libraries ++ library.toList
  let items : List ItemRow := db.items.map (rewrite changed) ++ number (nextId (db.items.map (·.id))) added
  if h : Consistent libraries items ∧ ∀ row ∈ changed, row.id ∈ db.items.map (·.id) then
    some ⟨libraries, items, h.1⟩
  else none

/-- The deletion of `handle_library_deleted`. -/
def Database.delete (db : Database) (embyId : Text) : Database where
  libraries := db.libraries
  items := db.items.filter (·.embyId ≠ some embyId)
  consistent :=
    ⟨db.consistent.1, db.consistent.2.1.sublist (List.filter_sublist.filterMap _),
      fun item hitem => db.consistent.2.2 item (List.mem_of_mem_filter hitem)⟩

end Tables

section Records
variable (env : SyncEnv)

/-- `s_path.split(literal)[-1]`, of a text with the literal in it. -/
def afterLast (literal : Text) : Text → Option Text
  | [] => none
  | c :: rest => (afterLast literal rest).or (dropLiteral literal (c :: rest))

def pickcodeMark : Text := "#pickcode=".toList

/-- The loop over the media sources. -/
def sourcePickcode : List MediaSource → Except Raised (Option Text)
  | [] => .ok none
  | source :: rest =>
      match source.path.get [] with
      | none => .error .typeError
      | some path =>
          match afterLast pickcodeMark path with
          | some code => .ok (some (code.takeWhile (· ≠ '&')))
          | none => sourcePickcode rest

def isStrm (path : Text) : Bool := ".strm".toList <:+ env.lowering.lower path

/-- `_extract_pickcode`; `file` is what the file at the path reads, if it is there and can be read. -/
def extractPickcode (item : Item) (file : Option Text) : Except Raised (Option Text) :=
  match item.path.get [] with
  | none => .error .typeError
  | some path =>
      match truthy (extractFileIdFromProxyUrl path) with
      | some fileId => .ok (some fileId)
      | none =>
          let content := if isStrm env path then file else none
          match content.bind fun text => (extractFileIdFromStrmContent env.checks text).toOption.bind truthy with
          | some fileId => .ok (some fileId)
          | none =>
              match item.mediaSources with
              | none => .error .typeError
              | some sources => sourcePickcode sources

/-- The record that an item makes: a new one, or the one that is there with its new values. -/
def itemRecord (libraryId : ℕ) (item : Item) (existing : Option ItemRow) (file : Option Text)
    (now : ℕ) : Except Raised (NewItem ⊕ ItemRow) := do
  match item.id with
  | none => throw .keyError
  | some embyId =>
      let pickcode ← extractPickcode env item file
      let path := (item.path.get []).getD []
      match existing with
      | none =>
          return .inl
            { embyId := some embyId, name := item.name, type := item.type, path := some path, pickcode,
              libraryId, isStrm := isStrm env path }
      | some row =>
          return .inr { row with name := item.name, path := some path, pickcode, updatedAt := some now }

/-- `_process_item`, which the webhook calls with the library 0. -/
def Database.processItem (db : Database) (libraryId : ℕ) (item : Item) (file : Option Text)
    (now : ℕ) : Option Database :=
  match itemRecord env libraryId item (db.items.find? (·.embyId = item.id)) file now with
  | .error _ => none
  | .ok (.inl new) => db.commit none [] [new]
  | .ok (.inr row) => db.commit none [row] []

/-- The keys of a dictionary of Python. -/
inductive PyKey
  | int (value : ℕ)
  | str (value : Text)
  deriving DecidableEq, Repr

/-- `batch_get_models_by_ids`: the rows whose primary key is one of the ids, by primary key. -/
def Database.batchGetByIds (db : Database) (ids : List Text) : List (PyKey × ItemRow) :=
  (db.items.filter fun row => ids.any (env.selects row.id)).map fun row => (.int row.id, row)

end Records

section Sync

structure Stats where
  libraries : ℕ := 0
  items : ℕ := 0
  new : ℕ := 0
  updated : ℕ := 0
  failed : ℕ := 0
  deriving DecidableEq, Repr

/-- What a sync does next: take a view, go on with the items it has asked for, take a batch, or process
an item of the batch it is in. -/
inductive SyncStage
  | views
  | listing (libraryId : ℕ) (parentId : Text)
  | batches (libraryId : ℕ) (rest : List (List Item))
  | items (libraryId : ℕ) (existing : List (PyKey × ItemRow)) (batch : List Item)
      (rest : List (List Item))
  deriving DecidableEq, Repr

/-- A sync at work, with what its session holds for the next commit. -/
structure Sync where
  views : List View
  stage : SyncStage := .views
  changed : List ItemRow := []
  added : List NewItem := []
  stats : Stats
  deriving DecidableEq, Repr

/-- The database, the sync that is at work, and the notifications of the syncs that went through. -/
structure LibrarySystem where
  db : Database := {}
  sync : Option Sync := none
  reports : List Stats := []

inductive LibraryEvent
  | begin (views : List View)
  | view
  | listed (items : List Item)
  | batch
  | process (file : Option Text) (now : ℕ)
  | abort
  | libraryNew (item : Item) (file : Option Text) (now : ℕ)
  | libraryDeleted (item : Item)
  deriving DecidableEq, Repr

/-- A sync is over, with an error or cancelled: its session closes without a commit. -/
def LibrarySystem.close (s : LibrarySystem) : LibrarySystem := { s with sync := none }

def LibrarySystem.go (s : LibrarySystem) (run : Sync) : LibrarySystem := { s with sync := some run }

/-- `_sync_single_library` up to the call for the items. -/
def LibrarySystem.takeView (s : LibrarySystem) (run : Sync) (view : View) (rest : List View) :
    LibrarySystem :=
  match view.id, view.name with
  | some embyId, some name =>
      match s.db.libraries.find? (·.embyId = embyId) with
      | some library => s.go { run with views := rest, stage := .listing library.id embyId }
      | none =>
          let library : EmbyLibrary :=
            ⟨nextId (s.db.libraries.map (·.id)), embyId, name, view.path, Nat.succ_pos _⟩
          match s.db.commit (some library) run.changed run.added with
          | none => s.close
          | some db =>
              { s with db }.go
                { run with views := rest, stage := .listing library.id embyId, changed := [], added := [] }
  | _, _ => s.close

/-- The stage with the rest of a batch. -/
def SyncStage.within (libraryId : ℕ) (existing : List (PyKey × ItemRow)) (rest : List (List Item)) :
    List Item → SyncStage
  | [] => .batches libraryId rest
  | item :: batch => .items libraryId existing (item :: batch) rest

/-- The loop of `process_item_batch` at one item: an error only counts. -/
def Sync.processItemOptimized (env : SyncEnv) (run : Sync) (libraryId : ℕ) (existing : List (PyKey × ItemRow))
    (item : Item) (file : Option Text) (now : ℕ) : Sync :=
  let stats := { run.stats with items := run.stats.items + 1 }
  let known := item.id.bind fun id => existing.lookup (.str id)
  match itemRecord env libraryId item known file now with
  | .error _ => { run with stats := { stats with failed := stats.failed + 1 } }
  | .ok (.inl new) =>
      { run with added := run.added ++ [new], stats := { stats with new := stats.new + 1 } }
  | .ok (.inr row) =>
      { run with changed := run.changed ++ [row], stats := { stats with updated := stats.updated + 1 } }

/-- A step of the sync at work. -/
def LibrarySystem.advance (env : SyncEnv) (s : LibrarySystem) (run : Sync) (event : LibraryEvent) :
    Option LibrarySystem :=
  match event, run.stage with
  | .view, .views =>
      match run.views with
      | [] => some { s.close with reports := s.reports ++ [run.stats] }
      | view :: rest => some (s.takeView run view rest)
  | .listed items, .listing libraryId _ =>
      some (s.go { run with stage := .batches libraryId (Paging.batches items 100) })
  | .batch, .batches _ [] => some (s.go { run with stage := .views })
  | .batch, .batches libraryId (batch :: rest) =>
      match batch.mapM (·.id) with
      | none => some s.close
      | some ids =>
          some (s.go { run with stage := .within libraryId (s.db.batchGetByIds env ids) rest batch })
  | .process file now, .items libraryId existing (item :: batch) rest =>
      some <| s.go
        { run.processItemOptimized env libraryId existing item file now with
          stage := .within libraryId existing rest batch }
  | .abort, _ => some s.close
  | _, _ => none

/-- What an event writes by itself, without the sync. -/
def LibraryEvent.write (env : SyncEnv) (db : Database) : LibraryEvent → Database
  | .libraryNew item file now => (db.processItem env 0 item file now).getD db
  | .libraryDeleted item => item.id.elim db db.delete
  | _ => db

/-- One step of the system; a sync that finds another one at work returns. -/
def LibrarySystem.step (env : SyncEnv) (s : LibrarySystem) (event : LibraryEvent) : Option LibrarySystem :=
  match event with
  | .begin views =>
      some (if s.sync.isSome then s else s.go { views, stats := { libraries := views.length } })
  | .libraryNew .. | .libraryDeleted .. => some { s with db := event.write env s.db }
  | _ => s.sync.bind fun run => s.advance env run event

end Sync

end SmartMedia.Emby.LibrarySync
