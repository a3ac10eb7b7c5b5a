import SmartMedia.Media.QuarkService
import SmartMedia.Media.StrmAgreement

/-!
# Paths on the remote drive

`get_file_by_path` and `get_full_path_by_fid` of `app/services/integrations/quark.py` on a
drive whose requests succeed and whose listings are complete. A request for an id that no
entry has is answered without an entry.
-/
namespace SmartMedia.Media

/-- An entry of the drive, with the id of its folder. -/
structure RemoteEntry extends FileData where
  pdirFid : String
  deriving DecidableEq, Repr

/-- A finite tree below the root `"0"`, in the order of its listings. -/
structure RemoteTree where
  entries : List RemoteEntry
  depth : String → ℕ
  fid_nodup : (entries.map (·.fid)).Nodup
  fid_ne_root : ∀ e ∈ entries, e.fid ≠ "0"
  fid_stripped : ∀ e ∈ entries, e.fid ≠ "" ∧ String.ofList (strip e.fid.toList) = e.fid
  parent : ∀ e ∈ entries, e.pdirFid = "0" ∨ ∃ d ∈ entries, d.fid = e.pdirFid
  depth_root : depth "0" = 0
  depth_entry : ∀ e ∈ entries, depth e.fid = depth e.pdirFid + 1

/-- The root, as `get_file_by_path` returns it. -/
def FileModel.root : FileModel := ⟨"0", ['/'], true, 0, 0⟩

namespace RemoteTree
variable (tree : RemoteTree) (html5 : Path → Option Path)

/-- The listing of a folder. -/
def children (fid : String) : List RemoteEntry := tree.entries.filter (·.pdirFid = fid)

/-- `get_files`. -/
def files (fid : String) : List FileModel :=
  (tree.children fid).map fun e => fileModelFromInfo html5 e.toFileData

/-- `client.get_file_info`. -/
def getFileInfo (fid : String) : Option RemoteEntry := tree.entries.find? (·.fid = fid)

section GetFileByPath

/-- `_looks_like_fid`; no other characters have the lower case forms. -/
def looksLikeFid (segment : Path) : Bool :=
  (strip segment).length = 32 ∧ (strip segment).all Html.isHexDigit

/-- `_file_model_from_info` on an entry as `get_file_info` returns it, with its name as it is. -/
def rawModel (info : FileData) : FileModel where
  fid := info.fid
  fileName := info.fileName
  isDir := info.fileType = 0
  category := info.category
  size := info.size

/-- `file.file_name == part or unescape(file.file_name) == part`. -/
def matchesPart (part : Path) (file : FileModel) : Bool :=
  file.fileName = part || Html.unescape html5 file.fileName = part

/-- The loop over the segments. -/
def walk : FileModel → List Path → Option FileModel
  | file, [] => some file
  | file, part :: parts =>
      ((tree.files html5 file.fid).find? (matchesPart html5 part)).bind fun found => walk found parts

/-- The entry that a first segment names by its id. -/
def legacy (first : Path) : Option RemoteEntry :=
  if looksLikeFid first then tree.getFileInfo (String.ofList first) else none

def getFileByPath (path : Path) : Option FileModel :=
  match components path with
  | [] => some .root
  | first :: rest =>
      match tree.legacy first with
      | some info => tree.walk html5 (rawModel info.toFileData) rest
      | none => tree.walk html5 .root (first :: rest)

end GetFileByPath

section GetFullPathByFid

/-- The name that is put into a path. -/
def pathName (info : RemoteEntry) : Path := Html.unescape html5 (strip info.fileName)

/-- The loop, from an entry up: the names on the way. -/
def ascend : ℕ → List String → String → List Path
  | 0, _, _ => []
  | fuel + 1, visited, current =>
      if current = "" ∨ current = "0" ∨ current ∈ visited then []
      else
        match tree.getFileInfo current with
        | none => []
        | some info =>
            let parent := String.ofList
              (strip (if info.pdirFid = "" then "0" else info.pdirFid).toList)
            [pathName html5 info].filter (· ≠ []) ++
              if parent = "" ∨ parent = current then []
              else ascend fuel (current :: visited) parent

/-- `"/".join(names)`. -/
def join (names : List Path) : Path := ['/'].intercalate names

/-- No more steps are made than there are entries. -/
def getFullPathByFid (fid : String) : Path :=
  join (tree.ascend html5 (tree.entries.length + 1) [] (String.ofList (strip fid.toList))).reverse

end GetFullPathByFid

end RemoteTree

end SmartMedia.Media
