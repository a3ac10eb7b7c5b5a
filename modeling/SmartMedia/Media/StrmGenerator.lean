import SmartMedia.Media.Paths

/-!
# Generating STRM files

`generate_strm_files` of `app/services/media/strm_generator.py` on a remote tree. A file
name is a path component: this is a field of its type, so that the paths built from
names need no further conditions. Local paths are lists of components without `.` and
`..`, as the operating system resolves them.
-/
namespace SmartMedia.Media

/-- `str.split("/")`. -/
def splitSlash : Path → List Path
  | [] => [[]]
  | c :: cs =>
      if c = '/' then [] :: splitSlash cs
      else (c :: (splitSlash cs).headD []) :: (splitSlash cs).tail

def components (p : Path) : List Path := (splitSlash p).filter (· ≠ [])

/-- `os.path.normpath` of an absolute path. -/
def normalize (parts : List Path) : List Path :=
  parts.foldl (fun acc c =>
    if c = ['.'] then acc else if c = ['.', '.'] then acc.dropLast else acc ++ [c]) []

/-- A path below a directory, seen from the working directory `cwd`. -/
def resolve (cwd : List Path) (directory : Path) (parts : List Path) : List Path :=
  normalize ((if directory.head? = some '/' then [] else cwd) ++ components directory ++ parts)

/-- The name of a remote file or directory. -/
structure FileName where
  chars : Path
  nonempty : chars ≠ []
  noSlash : '/' ∉ chars
  notDot : chars ≠ ['.']
  notDots : chars ≠ ['.', '.']
  deriving DecidableEq, Repr

@[ext] theorem FileName.ext {a b : FileName} (h : a.chars = b.chars) : a = b := by
  cases a
  cases b
  cases h
  rfl

/-- What `get_files` lists of a directory. -/
inductive RemoteNode where
  | file (fid : String) (name : FileName) (size : ℕ) (category : ℤ)
  | dir (fid : String) (name : FileName) (children : List RemoteNode)

/-- An entry of `_get_all_files`. -/
structure FileInfo where
  id : String
  name : FileName
  remotePath : Path
  size : ℕ
  category : ℤ
  deriving DecidableEq, Repr

/-- `f"{remote_path}/{file_name}" if remote_path else file_name`. -/
def childPath (remotePath : Path) (name : FileName) : Path :=
  if remotePath ≠ [] then remotePath ++ '/' :: name.chars else name.chars

namespace STRMGenerator

mutual

/-- The body of the loop in `_get_all_files`. -/
def nodeFiles (onlyVideo recursive : Bool) (remotePath : Path) : RemoteNode → List FileInfo
  | .file fid name size category =>
      if onlyVideo = true ∧ category ≠ 1 then []
      else [⟨fid, name, childPath remotePath name, size, category⟩]
  | .dir _ name children =>
      if recursive then getAllFiles onlyVideo recursive (childPath remotePath name) children
      else []

def getAllFiles (onlyVideo recursive : Bool) (remotePath : Path) : List RemoteNode → List FileInfo
  | [] => []
  | node :: nodes =>
      nodeFiles onlyVideo recursive remotePath node ++
        getAllFiles onlyVideo recursive remotePath nodes

end

variable {β : Type}

/-- `output_dir / f"{remote_path}.strm"`; an absolute path replaces the directory. -/
def strmPath (cwd : List Path) (outputDir remotePath : Path) : List Path :=
  let file := remotePath ++ ".strm".toList
  if file.head? = some '/' then normalize (components file)
  else resolve cwd outputDir (components file)

/-- The parts of a `Path`. -/
def pathParts (p : Path) : List Path := (components p).filter (· ≠ ['.'])

/-- `strm_path.relative_to(self.output_dir)`; `none` is its `ValueError`. -/
def relativeTo (outputDir remotePath : Path) : Option (List Path) :=
  let file := remotePath ++ ".strm".toList
  if file.head? ≠ some '/' then some (pathParts file)
  else if outputDir.head? = some '/' ∧ pathParts outputDir <+: pathParts file then
    some ((pathParts file).drop (pathParts outputDir).length)
  else none

/-- What one file comes to. -/
inductive Single where
  | generated (relative : List Path)
  | skipped
  | failed
  deriving DecidableEq, Repr

/-- `_generate_single_strm` where nothing fails before the file is written. -/
def generateSingleStrm (cwd : List Path) (outputDir : Path) (overwriteExisting : Bool)
    (videoUrl : FileInfo → β) (fs : FileMap (List Path) β) (info : FileInfo) :
    FileMap (List Path) β × Single :=
  let path := strmPath cwd outputDir info.remotePath
  if path ∈ fs ∧ overwriteExisting = false then (fs, .skipped)
  else (fs.insert path (videoUrl info),
    ((relativeTo outputDir info.remotePath).map Single.generated).getD .failed)

structure Stats where
  totalFiles : ℕ
  generatedFiles : ℕ
  skippedFiles : ℕ
  failedFiles : ℕ
  files : List (List Path)

/-- The files one after the other; their order makes no difference to the paths written. -/
def generateAll (cwd : List Path) (outputDir : Path) (overwriteExisting : Bool)
    (videoUrl : FileInfo → β) :
    FileMap (List Path) β → List FileInfo → FileMap (List Path) β × List Single
  | fs, [] => (fs, [])
  | fs, info :: infos =>
      let (fs₁, result) := generateSingleStrm cwd outputDir overwriteExisting videoUrl fs info
      let (fs₂, results) := generateAll cwd outputDir overwriteExisting videoUrl fs₁ infos
      (fs₂, result :: results)

/-- `generate_strm_files` for the children of the root directory. -/
def generateStrmFiles (cwd : List Path) (outputDir : Path) (overwriteExisting : Bool)
    (videoUrl : FileInfo → β) (fs : FileMap (List Path) β) (nodes : List RemoteNode)
    (remotePath : Path) (onlyVideo recursive : Bool) (maxFiles : ℕ) :
    FileMap (List Path) β × Stats :=
  let allFiles := getAllFiles onlyVideo recursive remotePath nodes
  let infos := if 0 < maxFiles ∧ maxFiles < allFiles.length then allFiles.take maxFiles else allFiles
  let (fs', results) := generateAll cwd outputDir overwriteExisting videoUrl fs infos
  (fs', {
    totalFiles := allFiles.length
    generatedFiles := results.countP fun r => r ≠ .skipped ∧ r ≠ .failed
    skippedFiles := results.count .skipped
    failedFiles := results.count .failed
    files := results.filterMap fun
      | .generated relative => some relative
      | _ => none })

end STRMGenerator

end SmartMedia.Media
