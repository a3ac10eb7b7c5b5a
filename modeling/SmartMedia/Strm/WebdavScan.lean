import SmartMedia.Media.PathLookups
import SmartMedia.Media.StrmOutput
import SmartMedia.Strm.WebdavUrl

/-!
# What a scan writes WebDAV URLs for

`generate_strm_from_quark` and `scan_directory` on a drive whose requests succeed, with the files
that they make URLs of, and `get_resource_inst` of the WebDAV provider without its cache.
-/
namespace SmartMedia.Strm
open Media

/-- What is scanned, from which folder on and with which path before its files, and the files. -/
structure Scan where
  root : String
  remotePrefix : Path
  files : List ListedInfo
  deriving DecidableEq, Repr

/-- The settings of a call. -/
structure ScanOptions where
  onlyVideo : Bool := true
  recursive : Bool := true
  maxFiles : ℤ := 0

inductive ScanCall where
  /-- `generate_strm_from_quark`, with its `root_id` or the configured one -/
  | fromQuark (rootId : String)
  /-- `scan_directory` -/
  | directory (remotePath : Path)

/-- `_normalize_remote_path`. -/
def normalizeRemotePath (path : Path) : Path :=
  let p := strip path
  if p = [] then ['/']
  else
    let p := if p.head? = some '/' then p else '/' :: p
    if p ≠ ['/'] then rstripSlashes p else p

section Drive
variable (tree : RemoteTree) (html5 : Path → Option Path) (options : ScanOptions)

/-- `_get_all_files`, through at most `fuel` folders below each other. -/
def getAllFiles : ℕ → String → Path → List ListedInfo
  | 0, _, _ => []
  | fuel + 1, parentId, remotePath =>
      (tree.files html5 parentId).flatMap fun file =>
        let current := joinName remotePath file.fileName
        if file.isDir then
          if options.recursive then getAllFiles fuel file.fid current else []
        else if options.onlyVideo = true ∧ file.category ≠ 1 then []
        else [⟨file.fid, file.fileName, current, file.size, file.category⟩]

/-- `generate_strm_files`; no more folders are below each other than there are entries. -/
def generateStrmFiles (rootId : String) (remotePath : Path) : Scan :=
  let all := getAllFiles tree html5 options (tree.entries.length + 1) rootId remotePath
  ⟨rootId, remotePath,
    if 0 < options.maxFiles ∧ options.maxFiles < all.length then all.take options.maxFiles.toNat
    else all⟩

/-- `generate_single_file_strm`. -/
def generateSingleFileStrm (fileId : String) (remotePath : Path) : Scan :=
  let cleanRemotePath := lstripSlashes remotePath
  let fileName :=
    if cleanRemotePath ≠ [] then (splitSlash cleanRemotePath).getLastD [] else fileId.toList
  ⟨fileId, remotePath, [⟨fileId, fileName, cleanRemotePath, 0, 1⟩]⟩

/-- The entry to scan, by its path or else by its id, and its path. -/
def locate (remotePath : Path) : Option (FileModel × Path) :=
  let remotePrefix := stripSlashes remotePath
  let fullPath (fid : String) (otherwise : Path) : Path :=
    if tree.getFullPathByFid html5 fid ≠ [] then tree.getFullPathByFid html5 fid else otherwise
  let found := match tree.getFileByPath html5 remotePath with
    | some node => some (node, remotePrefix)
    | none =>
        (tree.getFileInfo (String.ofList (lstripSlashes remotePath))).map fun info : RemoteEntry =>
          (RemoteTree.rawModel info.toFileData, fullPath info.fid remotePrefix)
  found.map fun (node, resolved) =>
    (node, if String.ofList remotePrefix = node.fid then fullPath node.fid resolved else resolved)

/-- `scan_directory`; `none` is its `ValueError`. -/
def scanDirectory (path : Path) : Option Scan :=
  let remotePath := normalizeRemotePath path
  if remotePath = ['/'] then
    some (generateStrmFiles tree html5 options "0" (stripSlashes remotePath))
  else
    (locate tree html5 remotePath).map fun (node, resolved) =>
      if node.isDir then generateStrmFiles tree html5 options node.fid resolved
      else generateSingleFileStrm node.fid (if resolved ≠ [] then resolved else node.fileName)

/-- `generate_strm_from_quark`. -/
def generateStrmFromQuark (rootId : String) : Scan :=
  generateStrmFiles tree html5 { options with recursive := true } rootId []

def ScanCall.run : ScanCall → Option Scan
  | .fromQuark rootId => some (generateStrmFromQuark tree html5 options rootId)
  | .directory remotePath => scanDirectory tree html5 options remotePath

/-- `get_resource_inst`: the file or folder of the resource. -/
def getResourceInst (path : Path) : Option FileModel :=
  let path := stripSlashes path
  if path = [] then some .root else tree.getFileByPath html5 path

/-- The id of the resource that the URL of a file leads to. -/
def urlTarget (checks : NetlocChecks) (cfg : WebdavConfig) (base : BaseUrl) (info : ListedInfo) :
    Option String :=
  ((cfg.requestPath checks (cfg.videoUrl base info.remotePath)).bind
    (getResourceInst tree html5)).map (·.fid)

end Drive

end SmartMedia.Strm
