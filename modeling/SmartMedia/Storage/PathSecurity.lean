import SmartMedia.Media.AbsolutePaths
import SmartMedia.Storage.Posix

/-!
# Checked paths

`validate_file_path` and the safe operations of `app/core/path_security.py` on a tree without loops of
links. The working directory is a path without links.
-/
namespace SmartMedia.Storage
open Media PosixPath

variable {β : Type}

inductive PathSecurityError where
  | empty
  | noDirectories
  | symbolicLink (filePath : Path)
  | unresolved (filePath : Path)
  | outside
  | missing (filePath : Path)
  deriving DecidableEq, Repr

def PathSecurityError.message : PathSecurityError → Path
  | .empty => "File path cannot be empty".toList
  | .noDirectories => "No allowed directories configured".toList
  | .symbolicLink filePath => "Symbolic links are not allowed: ".toList ++ filePath
  | .unresolved filePath => "Failed to resolve path: ".toList ++ filePath
  | .outside => "Access denied: file path is outside of allowed directories".toList
  | .missing filePath => "File does not exist: ".toList ++ filePath

section Texts

/-- The text of an absolute path. -/
def pathText (p : List FileName) : Path := rooted 1 (p.map (·.chars))

/-- `rstrip(os.sep)` -/
def rstripSep (p : Path) : Path := (p.reverse.dropWhile (· = '/')).reverse

/-- The comparison in the loop over the allowed directories. -/
def isAllowed (cwd : List FileName) (realPath allowedDir : Path) : Bool :=
  let absAllowed := abspath (pathText cwd) allowedDir
  let absAllowed := if absAllowed.getLast? = some '/' then absAllowed else absAllowed ++ ['/']
  absAllowed.isPrefixOf realPath || realPath = rstripSep absAllowed

/-- The working directory, and the configured local directory if it can be read. -/
structure Surroundings where
  cwd : List FileName
  localDirectory : Option Path := none

/-- `get_allowed_directories` -/
def getAllowedDirectories (env : Surroundings) : List Path :=
  let defaultDirs := ["./strm".toList, "./output".toList, "./tmp".toList, "./data".toList].map
    (abspath (pathText env.cwd))
  match env.localDirectory.filter (· ≠ []) with
  | none => defaultDirs
  | some localDir =>
      let absDir := abspath (pathText env.cwd) localDir
      if absDir ∈ defaultDirs then defaultDirs else defaultDirs ++ [absDir]

end Texts

section Queries
variable (sys : System β) (t : Tree β)

/-- `os.path.islink` of any text. A slash or dots at the end are followed. -/
def isLinkText (cwd : List FileName) (text : Path) : Bool :=
  match (splitSlash text).getLast?.bind part? with
  | some (.name n) =>
      match walk t sys.symlinkLimit (linkStart cwd text) (parts text).dropLast with
      | some dir =>
          match t.lookup (dir ++ [n]) with
          | some (.link _) => true
          | _ => false
      | none => false
  | _ => false

/-- `validate_file_path` -/
def validateFilePath (env : Surroundings) (filePath : Path) (allowedDirs : Option (List Path))
    (checkExists allowSymlinks : Bool) : Except PathSecurityError (List FileName) := do
  if filePath = [] then throw .empty
  let allowedDirs := allowedDirs.getD (getAllowedDirectories env)
  if allowedDirs = [] then throw .noDirectories
  let absPath := abspath (pathText env.cwd) filePath
  if allowSymlinks = false ∧ isLinkText sys t env.cwd filePath = true then
    throw (.symbolicLink filePath)
  match realpath t t.keys.card [] (parts absPath) with
  | .error _ => throw (.unresolved filePath)
  | .ok realPath =>
      if allowedDirs.any (isAllowed env.cwd (pathText realPath)) = false then throw .outside
      if checkExists = true ∧ pathExists sys t realPath = false then throw (.missing filePath)
      return realPath

end Queries

section Operations
variable (sys : System β) (env : Surroundings) (allowedDirs : Option (List Path))

/-- A check, whose exceptions are not told apart. -/
def validated (filePath : Path) (checkExists allowSymlinks : Bool) : FileM β (List FileName) := fun t =>
  match validateFilePath sys t env filePath allowedDirs checkExists allowSymlinks with
  | .ok realPath => .ok realPath t
  | .error _ => .error .raised t

/-- The directory of a path is made if it is not there. -/
def ensureDir (dir : List FileName) : FileM β Unit := do
  let t ← get
  if pathExists sys t dir = false then makedirs sys true dir

/-- `safe_rename` -/
def safeRename (src dst : Path) : FileM β Unit := do
  let srcValidated ← validated sys env allowedDirs src true false
  let dstValidated ← validated sys env allowedDirs dst false false
  ensureDir sys dstValidated.dropLast
  osRename sys srcValidated dstValidated

end Operations

end SmartMedia.Storage
