import SmartMedia.Media.StrmGenerator

/-!
# Validating STRM files

`list_local_strm_files`, `build_expected_strm_set` and `fast_scan` of
`app/services/strm_validator.py`. The cached tree is a JSON value; its members that the
recursion does not expect are skipped as in the source, and a field of an entry with an
unexpected type reads as a missing one. `str.lower` is a parameter.
-/
namespace SmartMedia.Media

/-- What `json.load` returns. -/
inductive Json where
  | null
  | bool (b : Bool)
  | num (n : ℤ)
  | str (s : Path)
  | arr (items : List Json)
  | obj (fields : List (Path × Json))

namespace Json

/-- `value.get("name", "")` and the like. -/
def getStr (fields : List (Path × Json)) (key : Path) : Path :=
  match fields.lookup key with
  | some (.str s) => s
  | _ => []

def getNum (fields : List (Path × Json)) (key : Path) : ℤ :=
  match fields.lookup key with
  | some (.num n) => n
  | _ => 0

def getBool (fields : List (Path × Json)) (key : Path) : Bool :=
  match fields.lookup key with
  | some (.bool b) => b
  | _ => false

/-- `not value`. -/
def falsy : Json → Bool
  | .null | .bool false | .num 0 | .str [] | .arr [] | .obj [] => true
  | _ => false

end Json

/-- `os.path.relpath` on the components of absolute paths. -/
def relpath (path start : List Path) : List Path :=
  let common := ((path.zip start).takeWhile fun p => p.1 = p.2).length
  let parts := List.replicate (start.length - common) "..".toList ++ path.drop common
  if parts = [] then [".".toList] else parts

structure StrmValidator where
  targetDirectory : Path
  remoteBase : Path
  videoFormats : List Path
  sizeThresholdBytes : ℤ

/-- The constructor; the base loses its trailing slashes. -/
def StrmValidator.new (targetDirectory remoteBase : Path) (videoFormats : List Path)
    (sizeThresholdMb : ℤ) : StrmValidator where
  targetDirectory
  remoteBase := (remoteBase.reverse.dropWhile (· = '/')).reverse
  videoFormats
  sizeThresholdBytes := sizeThresholdMb * 1024 * 1024

structure ValidationResult where
  validFiles : List (List Path)
  invalidFiles : List (List Path)
  missingFiles : List (List Path)
  extraFiles : List (List Path)

namespace StrmValidator
section
variable (validator : StrmValidator) (lower : Path → Path) (cwd : List Path)

/-- `os.path.splitext(file_name)[1].lower().lstrip(".")`. -/
def fileExtension (fileName : Path) : Path := (lower (splitext fileName).2).dropWhile (· = '.')

/-- The two checks of a file under the base. -/
def wanted (fileName : Path) (fileSize : ℤ) : Bool :=
  ¬ fileSize < validator.sizeThresholdBytes &&
    fileExtension lower fileName ∈ validator.videoFormats

/-- The path expected for a file; a relative path is never empty. -/
def expectedPath (fileName : Path) : List Path :=
  let relative := relpath (resolve cwd fileName []) (resolve cwd validator.remoteBase [])
  let baseName := (splitext (relative.getLast?.getD [])).1
  resolve cwd validator.targetDirectory (relative.dropLast ++ [baseName ++ ".strm".toList])

mutual

def processNode : Json → List (List Path)
  | .obj fields => processItems fields
  | _ => []

/-- The loop over `node.items()`. -/
def processItems : List (Path × Json) → List (List Path)
  | [] => []
  | (key, value) :: rest => processItem key value ++ processItems rest

def processItem (key : Path) : Json → List (List Path)
  | .arr children => if key = "children".toList then processChildren children else []
  | .obj fields =>
      let fileName := Json.getStr fields "name".toList
      if ¬ validator.remoteBase <+: fileName then []
      else if Json.getBool fields "is_dir".toList then processDirectory fields
      else if validator.wanted lower fileName (Json.getNum fields "size".toList) then
        [validator.expectedPath cwd fileName]
      else []
  | _ => []

/-- `process_node({"children": children})` for the entry's children, if there are any. -/
def processDirectory : List (Path × Json) → List (List Path)
  | [] => []
  | (key, value) :: rest =>
      if key = "children".toList then
        match value with
        | .obj [] => []
        | value => processItem "children".toList value
      else processDirectory rest

def processChildren : List Json → List (List Path)
  | [] => []
  | child :: children => processNode child ++ processChildren children

end

def buildExpectedStrmSet (fileTree : Json) : List (List Path) :=
  validator.processNode lower cwd fileTree

end

/-- `os.walk` finds the files below the directory, in some order. -/
def Walks {β : Type} (cwd : List Path) (directory : Path) (fs : FileMap (List Path) β)
    (walk : List (List Path)) : Prop :=
  ∀ p, p ∈ walk ↔ p ∈ fs ∧ resolve cwd directory [] <+: p

/-- `list_local_strm_files` on what `os.walk` finds. -/
def listLocalStrmFiles (lower : Path → Path) (walk : List (List Path)) : List (List Path) :=
  walk.filter fun p => ".strm".toList.isSuffixOf (lower (p.getLast?.getD []))

/-- `fast_scan` with the cached tree, where one was loaded. -/
def fastScan (validator : StrmValidator) (lower : Path → Path) (cwd : List Path)
    (cachedTree : Option Json) (localStrmFiles : List (List Path)) : ValidationResult :=
  match cachedTree with
  | none => ⟨[], localStrmFiles, [], []⟩
  | some tree =>
      if tree.falsy then ⟨[], localStrmFiles, [], []⟩
      else
        let expected := (validator.buildExpectedStrmSet lower cwd tree).dedup
        let locals := localStrmFiles.dedup
        let extra := locals.filter (· ∉ expected)
        let missing := expected.filter (· ∉ locals)
        ⟨locals.filter (· ∉ extra), extra ++ missing, missing, extra⟩

end StrmValidator

end SmartMedia.Media
