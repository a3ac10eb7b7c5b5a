import Mathlib.Data.Rat.Defs
import SmartMedia.Media.SmartNames
import SmartMedia.Strm.WebdavUrl

/-!
# Generating STRM files from a drive

`process_strm_generation` of `app/services/media/organize.py` from the scan on, with the names that
`RenameService` of `rename.py` gives. What the search for a match answers, which calls raise, and how far
a file is written come with each scanned file. Locations are normalised paths without links. What the
callback is told plays no role.
-/
namespace SmartMedia.Media.Organize
open PythonText PercentEncoding Strm
open EmbyNamingService (isIllegal stripEnds)
open SmartNames (formatInt withYear)

/-- An exception that is caught for one file, or a cancellation, which is not. -/
inductive Signal where
  | exception | cancelled
  deriving DecidableEq, Repr

structure ScannedFile where
  fid : Path
  fileName : Path
  fullPath : Path
  size : ℕ
  deriving DecidableEq, Repr

section Scan

/-- What the drive lists. -/
inductive DriveFile where
  | file (fid fileName : Path) (size : ℕ)
  | dir (fid fileName : Path) (files : List DriveFile)

/-- `ORGANIZE_VIDEO_EXTENSIONS` -/
def organizeVideoExtensions : List Path :=
  [".mp4".toList, ".mkv".toList, ".avi".toList, ".mov".toList, ".wmv".toList, ".flv".toList,
    ".ts".toList, ".m2ts".toList]

variable (lowering : Lowering)

/-- `_is_video` -/
def isVideo (fileName : Path) : Bool :=
  lowering.lower (splitext fileName).2 ∈ organizeVideoExtensions

/-- The path of an entry below `currentPath`. -/
def childPath (currentPath fileName : Path) : Path :=
  (join currentPath fileName).map fun c => if c = '\\' then '/' else c

mutual

/-- One entry of the loop in `_walk`. -/
def visit (currentPath : Path) : DriveFile → List ScannedFile
  | .file fid fileName size =>
      if isVideo lowering fileName then [⟨fid, fileName, childPath currentPath fileName, size⟩] else []
  | .dir _ fileName files => walk (childPath currentPath fileName) files

/-- `_walk` -/
def walk (currentPath : Path) : List DriveFile → List ScannedFile
  | [] => []
  | file :: files => visit currentPath file ++ walk currentPath files

end

/-- `_scan_recursive` -/
def scanRecursive (rootPath : Path) : Option DriveFile → List ScannedFile
  | none => []
  | some (.dir _ _ files) => walk lowering rootPath files
  | some (.file fid fileName size) =>
      if isVideo lowering fileName then [⟨fid, fileName, rootPath, size⟩] else []

end Scan

section Names

structure MatchInfo where
  title : Option Path
  year : Option ℤ := none
  mediaType : Option Path := none
  season : Option ℤ := none
  episode : Option ℤ := none
  episodeTitle : Path := []
  deriving DecidableEq, Repr

/-- `RenameService._sanitize_filename` -/
def sanitizeFilename (filename : Path) : Path :=
  let sanitized := stripEnds (filename.map fun c => if isIllegal c then '_' else c)
  if sanitized = [] then "Unknown".toList else sanitized

/-- `RenameService._generate_new_name`; without a title it raises. -/
def generateNewName (info : MatchInfo) (ext : Path) : Option (Path × Path) := do
  let safeTitle := sanitizeFilename (← info.title)
  if info.mediaType.getD "movie".toList = "movie".toList then
    return (withYear safeTitle info.year, withYear safeTitle info.year ++ ext)
  let showFolder := withYear safeTitle info.year
  let folderName := match info.season with
    | some season => join showFolder ("Season ".toList ++ formatInt 2 season)
    | none => showFolder
  let fileName := match info.season, info.episode with
    | some season, some episode =>
        let code := safeTitle ++ " - S".toList ++ formatInt 2 season ++ "E".toList ++ formatInt 2 episode
        if info.episodeTitle ≠ [] then code ++ " - ".toList ++ info.episodeTitle else code
    | _, _ => safeTitle
  return (folderName, fileName ++ ext)

end Names

section Run

/-- The parameters of the task, and the settings that it reads. -/
structure StrmTask where
  cwd : List Path
  targetDir : Path
  webdavUser : Path
  webdavPass : Path
  host : Path
  port : ℕ

/-- `confidence_threshold` -/
def confidenceThreshold : ℚ := mkRat 7 10

/-- `replace("%2F", "/")` -/
def replaceEscapedSlashes : Path → Path
  | '%' :: '2' :: 'F' :: rest => '/' :: replaceEscapedSlashes rest
  | c :: rest => c :: replaceEscapedSlashes rest
  | [] => []

/-- `_build_webdav_url` -/
def StrmTask.buildWebdavUrl (task : StrmTask) (path : Path) : Path :=
  let path := if path.head? = some '/' then path else '/' :: path
  let safePath := replaceEscapedSlashes (quote isPathSafe path)
  let host := if task.host = "0.0.0.0".toList then "127.0.0.1".toList else task.host
  let auth := if task.webdavUser ≠ [] ∧ task.webdavPass ≠ [] then
    task.webdavUser ++ ':' :: task.webdavPass ++ ['@'] else []
  "http://".toList ++ auth ++ host ++ ':' :: decimal 0 task.port ++ "/dav".toList ++ safePath

/-- What `_write_strm` meets: it succeeds, nothing can be opened, or the file is opened and only so many
characters are written. -/
inductive WriteAnswer where
  | written
  | refused
  | broken (count : ℕ)
  deriving DecidableEq, Repr

/-- What is answered while one file is processed; `matched` is the result of the search. -/
structure Answers where
  announced : Option Signal := none
  matched : Except Signal (Option MatchInfo × ℚ)
  write : WriteAnswer := .written
  reported : Option Signal := none

/-- A location that was opened for writing, and the file for which. -/
structure Opening where
  location : List Path
  file : ScannedFile
  complete : Bool
  deriving DecidableEq, Repr

/-- The counters and the files, with the openings of the run as a history variable. -/
structure Progress where
  processed : ℕ := 0
  generated : ℕ := 0
  skipped : ℕ := 0
  errors : ℕ := 0
  files : FileMap (List Path) Path
  opened : List Opening := []

abbrev OrganizeM := EStateM Signal Progress

/-- `update_progress` -/
def updateProgress (answer : Option Signal) : OrganizeM Unit :=
  match answer with
  | none => pure ()
  | some signal => throw signal

/-- `_write_strm` -/
def writeStrm (file : ScannedFile) (location : List Path) (content : Path) :
    WriteAnswer → OrganizeM Unit
  | .written => modify fun s => { s with
      files := s.files.insert location content
      opened := s.opened ++ [⟨location, file, true⟩] }
  | .refused => throw .exception
  | .broken count => do
      modify fun s => { s with
        files := s.files.insert location (content.take count)
        opened := s.opened ++ [⟨location, file, false⟩] }
      throw .exception

/-- `except Exception` -/
def countError : Signal → OrganizeM Unit
  | .exception => modify fun s => { s with errors := s.errors + 1 }
  | .cancelled => throw .cancelled

namespace StrmTask
variable (task : StrmTask)

/-- Where `os.path.join(target_dir, folder_name, strm_name)` lies. -/
def location (names : Path × Path) : List Path :=
  let strmName := (splitext names.2).1 ++ ".strm".toList
  resolve task.cwd (join task.targetDir (join names.1 strmName)) []

/-- The `try` block for one file. -/
def generate (file : ScannedFile) (answers : Answers) : OrganizeM Unit := do
  updateProgress answers.announced
  let (matchInfo, confidence) ← liftExcept answers.matched
  match matchInfo.filter fun _ => confidenceThreshold ≤ confidence with
  | some info =>
      match generateNewName info (splitext file.fileName).2 with
      | none => throw .exception
      | some names =>
          writeStrm file (task.location names) (task.buildWebdavUrl file.fullPath) answers.write
          modify fun s => { s with generated := s.generated + 1 }
          updateProgress answers.reported
  | none =>
      modify fun s => { s with skipped := s.skipped + 1 }
      updateProgress answers.reported
where
  liftExcept : Except Signal (Option MatchInfo × ℚ) → OrganizeM (Option MatchInfo × ℚ)
    | .ok result => pure result
    | .error signal => throw signal

/-- The body of the loop. -/
def processFile (file : ScannedFile) (answers : Answers) : OrganizeM Unit := do
  tryCatch (task.generate file answers) countError
  modify fun s => { s with processed := s.processed + 1 }

def processFiles : List (ScannedFile × Answers) → OrganizeM Unit
  | [] => pure ()
  | (file, answers) :: turns => do
      task.processFile file answers
      processFiles turns

/-- What the three calls of `update_progress` outside of the loop answer. -/
structure Updates where
  scanning : Option Signal := none
  found : Option Signal := none
  completed : Option Signal := none

/-- `process_strm_generation`, with the scanned files and what is answered for each. -/
def processScanned (updates : Updates) (turns : List (ScannedFile × Answers)) :
    OrganizeM (ℕ × ℕ × ℕ × ℕ) := do
  updateProgress updates.scanning
  updateProgress updates.found
  if turns.length = 0 then
    updateProgress updates.completed
    return (0, 0, 0, 0)
  task.processFiles turns
  updateProgress updates.completed
  let s ← get
  return (s.processed, s.generated, s.skipped, s.errors)

/-- The same with the scan. -/
def processStrmGeneration (lowering : Lowering) (sourceDir : Path) (root : Option DriveFile)
    (updates : Updates) (answers : ℕ → Answers) (files : FileMap (List Path) Path) :
    EStateM.Result Signal Progress (ℕ × ℕ × ℕ × ℕ) :=
  let turns := (scanRecursive lowering sourceDir root).zipIdx.map fun (file, i) => (file, answers i)
  task.processScanned updates turns { files }

end StrmTask

end Run

end SmartMedia.Media.Organize
