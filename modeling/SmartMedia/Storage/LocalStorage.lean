import SmartMedia.Storage.Posix

/-!
# Local storage

The operations of `LocalStorageProvider` in `app/services/storage/local.py` that change files,
and `handle_operation` of `app/services/file_manager_service.py` for local storage. The base
directory is the resolved one. Replies keep what is decided by them, not their texts.
-/
namespace SmartMedia.Storage
open Media

variable {β : Type}

namespace LocalStorageProvider
variable (sys : System β) (base : List FileName)

def candidate (path : Path) : List Part :=
  if path.head? = some '/' then parts path else names base ++ parts path

/-- `_resolve_path`. -/
def resolvePath (path : Path) : FileM β (List FileName) := do
  if path = [] then throw .raised
  let t ← get
  match realpath t t.keys.card [] (candidate base path) with
  | .error e => throw e
  | .ok resolved => if base <+: resolved then pure resolved else throw .raised

/-- `_map_to_file_item`, which raises where there is nothing. -/
def mapToFileItem (p : List FileName) : FileM β Unit := do
  let t ← get
  if pathExists sys t p = true then pure () else throw .osError

/-- `rename`. -/
def rename (path newName : Path) : FileM β Unit := do
  if '/' ∈ newName then throw .raised
  let resolved ← resolvePath base path
  let parent := resolved.dropLast
  match part? newName with
  | none => do
      osRename sys resolved parent
      mapToFileItem sys parent
  -- nothing is renamed to `..`
  | some .up => throw .osError
  | some (.name n) => do
      if '\x00' ∈ n.chars then throw .raised
      osRename sys resolved (parent ++ [n])
      mapToFileItem sys (parent ++ [n])

/-- `move`. -/
def move (sourcePath targetDir : Path) : FileM β Unit := do
  let resolvedSource ← resolvePath base sourcePath
  let resolvedTargetDir ← resolvePath base targetDir
  let targetPath := resolvedTargetDir ++ resolvedSource.getLast?.toList
  shutilMove sys resolvedSource targetPath
  mapToFileItem sys targetPath

/-- `delete`. -/
def delete (path : Path) : FileM β Unit := do
  let resolved ← resolvePath base path
  let t ← get
  if isDir sys t resolved = true then rmtree sys resolved else unlink sys resolved

/-- `mkdir`. -/
def mkdir (parentPath name : Path) : FileM β Unit := do
  if '/' ∈ name then throw .raised
  let resolvedParent ← resolvePath base parentPath
  match part? name with
  | none => do
      makedirs sys true resolvedParent
      mapToFileItem sys resolvedParent
  -- the directory above is there if this one is
  | some .up => makedirsAbove resolvedParent
  | some (.name n) =>
      if '\x00' ∈ n.chars then do
        makedirsAbove resolvedParent
        throw .raised
      else do
        makedirs sys true (resolvedParent ++ [n])
        mapToFileItem sys (resolvedParent ++ [n])
where
  /-- `os.makedirs` of a path below, up to its last name. -/
  makedirsAbove (parent : List FileName) : FileM β Unit := do
    let t ← get
    if pathExists sys t parent = false then
      tryCatch (makedirs sys true parent) fun e => if e = .fileExists then pure () else throw e
    let t ← get
    if isDir sys t parent = true then pure () else throw .osError

/-- `move_batch`. -/
def moveBatch (sourcePaths : List Path) (targetDir : Path) : FileM β Unit :=
  sourcePaths.forM fun path => move sys base path targetDir

/-- `delete_batch`. -/
def deleteBatch (paths : List Path) : FileM β Unit := paths.forM (delete sys base)

end LocalStorageProvider

inductive FileOperationAction
  | rename
  | move
  | delete
  | mkdir
  deriving DecidableEq, Repr

structure FileOperationRequest where
  action : FileOperationAction
  paths : List Path
  target : Option Path
  deriving DecidableEq, Repr

inductive Reply
  | moved (count : ℕ)
  | deleted (count : ℕ)
  | renamed (results : List (Path × Bool))
  | created
  deriving DecidableEq, Repr

section HandleOperation
open LocalStorageProvider
variable (sys : System β) (base : List FileName)

/-- The loop over the paths to rename, which goes on after any exception. -/
def renameAll (newName : Path) : List Path → FileM β (List (Path × Bool))
  | [] => pure []
  | path :: rest => do
      let success ← tryCatch (do rename sys base path newName; pure true) fun _ => pure false
      let results ← renameAll newName rest
      pure ((path, success) :: results)

/-- `handle_operation`. -/
def handleOperation (request : FileOperationRequest) : FileM β Reply :=
  -- an empty target counts as none
  let target := request.target.filter (· ≠ [])
  match request.action, target with
  | .move, some target => do
      moveBatch sys base request.paths target
      pure (.moved request.paths.length)
  | .delete, _ => do
      deleteBatch sys base request.paths
      pure (.deleted request.paths.length)
  | .rename, some target => do
      let results ← renameAll sys base target request.paths
      pure (.renamed results)
  | .mkdir, some target =>
      tryCatch (do
        LocalStorageProvider.mkdir sys base (request.paths.headD ['0']) target
        pure .created) fun _ => throw .raised
  | _, none => throw .raised

end HandleOperation

end SmartMedia.Storage
