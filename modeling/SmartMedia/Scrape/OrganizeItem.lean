import SmartMedia.Media.SmartNames
import SmartMedia.Scrape.CategoryStrategy
import SmartMedia.Storage.SafeCalls

/-!
# Organizing a scraped file

`_organize_item` of `app/services/media/scrape.py`, with the names and directories it is made of. Texts
are paths as the system reads them.
-/
namespace SmartMedia.Scrape
open Media PythonText PosixPath Storage

variable {β : Type}

section Names

/-- `re.sub` of one or more such characters by a blank. -/
def blankRuns (p : Char → Bool) : Bool → Path → Path
  | _, [] => []
  | inRun, c :: s =>
      if p c then if inRun then blankRuns p true s else ' ' :: blankRuns p true s
      else c :: blankRuns p false s

/-- `_sanitize_filename` -/
def sanitizeFilename (value : Path) : Path :=
  let cleaned := blankRuns (['<', '>', ':', '"', '/', '\\', '|', '?', '*'].contains ·) false value
  let cleaned := strip (blankRuns isSpace false cleaned)
  if cleaned = [] then "Unknown".toList else cleaned

/-- `_build_target_filename` -/
def buildTargetFilename (item : ScrapeItem) (sourceFile : Path) : Path :=
  let ext := (splitext (basename sourceFile)).2
  let title := (truthy item.title).getD "Unknown".toList
  let stem :=
    if item.mediaType = .tv then
      match item.season, item.episode with
      | some season, some episode =>
          title ++ " - S".toList ++ SmartNames.formatInt 2 season ++ "E".toList ++
            SmartNames.formatInt 2 episode
      | _, _ => title
    else SmartNames.withYear title item.year
  sanitizeFilename stem ++ ext

end Names

section Options

/-- What of the options is read. -/
structure OrganizeOptions where
  sourcePath : Option Path := none
  destPath : Option Path := none
  targetPath : Option Path := none
  enableSecondaryCategory : Bool := true
  forceOverwrite : Bool := false
  renameMode : Path := "move".toList
  deriving DecidableEq, Repr

/-- `_append_dir` -/
def appendDir (cwd : Path) (allowedDirs : List Path) (path : Option Path) : List Path :=
  match path.filter (strip · ≠ []) with
  | none => allowedDirs
  | some path =>
      let absDir := abspath cwd path
      let allowedDirs := if absDir ∈ allowedDirs then allowedDirs else allowedDirs ++ [absDir]
      let parentDir := dirname absDir
      if parentDir = [] ∨ parentDir ∈ allowedDirs then allowedDirs else allowedDirs ++ [parentDir]

/-- `_build_allowed_dirs` -/
def buildAllowedDirs (cwd : Path) (options : OrganizeOptions) (extraPaths : List Path) : List Path :=
  ([options.sourcePath, options.destPath, options.targetPath] ++ extraPaths.map some).foldl
    (appendDir cwd) []

/-- The directory that files are organized into. -/
def destRoot (options : OrganizeOptions) (sourceFile : Path) : Path :=
  (truthy options.destPath).getD (dirname sourceFile)

/-- The folder of the category in it. -/
def targetRoot (low : LowerCase) (row : Option CategoryStrategy) (item : ScrapeItem)
    (options : OrganizeOptions) : Path :=
  let root := destRoot options item.filePath
  let strategy := getCategoryStrategy low row
  if options.enableSecondaryCategory = true ∧ strategy.enabled = true then
    let categoryKey := resolveCategoryKey low item item.filePath strategy
    let folder := strategy.folderNames.get categoryKey
    join root (if folder = [] then ({} : FolderNames).get categoryKey else folder)
  else root

end Options

section NextAvailable

/-- The loop of `_next_available_path`, with so many tests at most. -/
def firstAvailable (taken : Path → Bool) (variant : ℕ → Path) : ℕ → ℕ → Path → Path
  | 0, _, candidate => candidate
  | fuel + 1, index, candidate =>
      if taken candidate then firstAvailable taken variant fuel (index + 1) (variant index)
      else candidate

variable (sys : System β) (t : Storage.Tree β) (cwd : List FileName)

/-- `_next_available_path` -/
def nextAvailablePath (targetPath : Path) : Path :=
  let directory := dirname targetPath
  let (stem, ext) := splitext (basename targetPath)
  firstAvailable (existsText sys t cwd) (fun index => join directory (numbered stem ext index))
    (t.keys.card + 2) 1 targetPath

end NextAvailable

section Organize
variable {sys : System β} (env : Surroundings) (os : Os sys env.cwd)

structure StandardError where
  code : String
  message : String
  detail : Path
  deriving DecidableEq, Repr

inductive Organized where
  | done (targetPath : Path)
  | failed (e : StandardError)
  deriving DecidableEq, Repr

/-- The rest follows, unless the path is refused. -/
def unlessRefused (message : String) (m : SafeM β Unit) (rest : SafeM β Organized) :
    SafeM β Organized := fun t =>
  match m t with
  | .ok _ t' => rest t'
  | .error (.security e) t' => .ok (.failed ⟨"PATH_SECURITY_ERROR", message, e.message⟩) t'
  | .error (.os e) t' => .error (.os e) t'

/-- What brings the file to its target. -/
def transfer (allowedDirs : List Path) (mode sourceFile targetPath : Path) : SafeM β Organized := do
  if mode = "move".toList then
    os.safeRename env (some allowedDirs) sourceFile targetPath
    pure (.done targetPath)
  else if mode = "copy".toList then
    let _ ← checked env (some allowedDirs) sys sourceFile true false
    let _ ← checked env (some allowedDirs) sys targetPath false false
    os.copy2 env sourceFile targetPath
    pure (.done targetPath)
  else if mode = "hardlink".toList then
    os.safeHardlink env (some allowedDirs) sourceFile targetPath
    pure (.done targetPath)
  else if mode = "softlink".toList then
    os.safeSymlink env (some allowedDirs) sourceFile targetPath
    pure (.done targetPath)
  else pure (.failed ⟨"INVALID_RENAME_MODE", "Unsupported rename mode", mode⟩)

/-- No exception leaves it. -/
def caught (m : SafeM β Organized) : SafeM β Organized := fun t =>
  match m t with
  | .ok r t' => .ok r t'
  | .error (.security e) t' =>
      .ok (.failed ⟨"PATH_SECURITY_ERROR", "File operation blocked for security reasons", e.message⟩) t'
  | .error (.os e) t' =>
      .ok (.failed ⟨"RENAME_IO_ERROR", "Failed to organize media file", os.describe e⟩) t'

variable (low : LowerCase) (row : Option CategoryStrategy) (item : ScrapeItem)
  (options : OrganizeOptions)

/-- The directories that `_organize_item` allows. -/
def organizeDirs : List Path :=
  buildAllowedDirs (pathText env.cwd) options
    [dirname item.filePath, destRoot options item.filePath]

/-- The target of a file before it is seen whether there is one. -/
def organizeTarget : Path :=
  join (targetRoot low row item options) (buildTargetFilename item item.filePath)

/-- The end of `_organize_item`, once both paths have been checked. -/
def place : SafeM β Organized := do
  let targetPath := organizeTarget low row item options
  let dirs := organizeDirs env item options
  let t ← get
  if existsText sys t env.cwd targetPath = true then
    if options.forceOverwrite = true then
      call (os.remove targetPath)
      caught env os (transfer env os dirs options.renameMode item.filePath targetPath)
    else
      caught env os (transfer env os dirs options.renameMode item.filePath
        (nextAvailablePath sys t env.cwd targetPath))
  else caught env os (transfer env os dirs options.renameMode item.filePath targetPath)

/-- `_organize_item` -/
def organizeItem : SafeM β Organized := do
  let sourceFile := item.filePath
  let targetPath := organizeTarget low row item options
  let dirs := organizeDirs env item options
  let t ← get
  if existsText sys t env.cwd sourceFile = false then
    pure (.failed ⟨"SOURCE_FILE_MISSING", "Source file not found", sourceFile⟩)
  else
    unlessRefused "Target directory is outside of allowed directories"
      (os.safeMakedirs env (some dirs) (targetRoot low row item options))
      (unlessRefused "File path is outside of allowed directories"
        (do
          let _ ← checked env (some dirs) sys sourceFile true false
          let _ ← checked env (some dirs) sys targetPath false false
          pure ())
        (if abspath (pathText env.cwd) sourceFile = abspath (pathText env.cwd) targetPath then
          pure (.done targetPath)
        else place env os low row item options))

end Organize

end SmartMedia.Scrape
