import SmartMedia.Library.DepthSearch
import SmartMedia.Search.SearchService

/-!
# The size of a share

`get_share_size` of `app/services/quark_size_fetcher.py` and the two loops under it. The listing
requests are counted, and the answer to a request may depend on its number.
-/
namespace SmartMedia.Search
open PythonRegex

/-- An entry of a listing, by its `file_type`: `"0"`, `"1"` or another one. -/
inductive Item
  | file (fileSize : ℕ)
  | folder (fid : Text)
  | other
deriving DecidableEq, Repr

def Item.size : Item → ℕ
  | .file fileSize => fileSize
  | .folder _ => 0
  | .other => 0

/-- The id of a folder, where it has one. -/
def Item.fid? : Item → Option Text
  | .file _ => none
  | .folder fid => if fid ≠ [] then some fid else none
  | .other => none

/-- The sizes of the files among the entries. -/
def fileSizes (items : List Item) : ℕ := (items.map Item.size).sum

def subfolders (items : List Item) : List Text := items.filterMap Item.fid?

/-- The entries of a share: those on top, with the number that is reported with them (zero if it is
missing), and those of the folders. -/
structure Share where
  root : List Item
  totalCount : ℕ
  folders : List (Text × List Item)
  root_named : Item.folder [] ∉ root

def Share.entries (share : Share) (fid : Text) : List Item := (share.folders.lookup fid).getD []

/-- How a listing request ends. -/
inductive Outcome
  | answered
  | errorCode
  | raised
deriving DecidableEq, Repr

/-- A page of the top, or of a folder. -/
structure Request where
  parent : Option Text
  page : ℕ
deriving DecidableEq, Repr

section Fetch
variable (share : Share) (outcome : Request → ℕ → Outcome)

/-- The pages of a folder from `page` on, as far as they are read; `remaining` are its entries there. -/
def folderPages (fid : Text) (remaining : List Item) (page requests : ℕ) : List Item × ℕ :=
  match outcome ⟨some fid, page⟩ requests with
  | .errorCode => ([], requests + 1)
  | .raised => ([], requests + 1)
  | .answered =>
      if remaining.length < 100 then (remaining, requests + 1)
      else
        let (items, requests) := folderPages fid (remaining.drop 100) (page + 1) (requests + 1)
        (remaining.take 100 ++ items, requests)
termination_by remaining.length

/-- A turn of the loop over the stack: the total and the number of requests are carried along. -/
def visitFolder (state : ℕ × ℕ) (fid : Text) : List Text × ℕ × ℕ :=
  let (items, requests) := folderPages outcome fid (share.entries fid) 1 state.2
  (subfolders items, state.1 + fileSizes items, requests)

def maxDepth : ℕ := 10

/-- `_get_folder_size`; no value if the fuel does not suffice. -/
def getFolderSize (fuel : ℕ) (fid : Text) (requests : ℕ) : Option (ℕ × ℕ) :=
  (DepthSearch.search (visitFolder share outcome) maxDepth fuel [(fid, 0)] [] (0, requests)).map Prod.snd

/-- The loop over the entries of a page of the top. -/
def addItems (fuel : ℕ) : List Item → ℕ → ℕ → Option (ℕ × ℕ)
  | [], totalSize, requests => some (totalSize, requests)
  | .file fileSize :: items, totalSize, requests => addItems fuel items (totalSize + fileSize) requests
  | .folder fid :: items, totalSize, requests => do
      let (folderSize, requests) ← getFolderSize share outcome fuel fid requests
      addItems fuel items (totalSize + folderSize) requests
  | .other :: items, totalSize, requests => addItems fuel items totalSize requests

/-- The loop over the pages of the top, from `page` on. An exception ends it without a size. -/
def rootPages (fuel : ℕ) (remaining : List Item) (page totalSize requests : ℕ) : Option (Option ℕ) :=
  match outcome ⟨none, page⟩ requests with
  | .errorCode => some (some totalSize)
  | .raised => some none
  | .answered =>
      if remaining = [] then some (some totalSize)
      else
        (addItems share outcome fuel (remaining.take 100) totalSize (requests + 1)).bind
          fun (totalSize, requests) =>
            if share.totalCount ≤ (remaining.take 100).length ∨ (remaining.take 100).length < 100 then
              some (some totalSize)
            else rootPages fuel (remaining.drop 100) (page + 1) totalSize requests
termination_by remaining.length
decreasing_by
  have hne : remaining ≠ [] := by assumption
  have hlength := List.length_pos_of_ne_nil hne
  rw [List.length_drop]
  omega

/-- `_fetch_share_size`; `token` tells whether a token is returned. -/
def fetchShareSize (fuel : ℕ) (token : Bool) : Option (Option ℕ) :=
  if token then rootPages share outcome fuel share.root 1 0 1 else some none

end Fetch

/-- `QuarkSizeCache`, with the times in seconds. -/
structure QuarkSizeCache where
  cache : Text → Option (ℕ × ℚ) := fun _ => none
  ttl : ℚ := 3600

namespace QuarkSizeCache

def get (cache : QuarkSizeCache) (shareKey : Text) (now : ℚ) : Option ℕ × QuarkSizeCache :=
  match cache.cache shareKey with
  | none => (none, cache)
  | some (size, timestamp) =>
      if cache.ttl < now - timestamp then
        (none, { cache with cache := Function.update cache.cache shareKey none })
      else (some size, cache)

def set (cache : QuarkSizeCache) (shareKey : Text) (size : ℕ) (now : ℚ) : QuarkSizeCache :=
  { cache with cache := Function.update cache.cache shareKey (some (size, now)) }

end QuarkSizeCache

/-- A call of `get_share_size`, with what happens during it: when the cache is asked and when a size is
kept, and the answers of the service. An exception before the listing counts as a missing token. -/
structure SizeCall where
  shareKey : Text
  askedAt : ℚ
  keptAt : ℚ
  token : Bool
  outcome : Request → ℕ → Outcome

def getShareSize (shares : Text → Share) (fuel : ℕ) (cache : QuarkSizeCache) (call : SizeCall) :
    Option (Option ℕ × QuarkSizeCache) :=
  match cache.get call.shareKey call.askedAt with
  | (some size, cache) => some (some size, cache)
  | (none, cache) =>
      (fetchShareSize (shares call.shareKey) call.outcome fuel call.token).map fun
        | none => (none, cache)
        | some size => (some size, cache.set call.shareKey size call.keptAt)

/-- Calls one after another, and what they return. -/
def getShareSizes (shares : Text → Share) (fuel : ℕ) :
    QuarkSizeCache → List SizeCall → Option (List (Option ℕ) × QuarkSizeCache)
  | cache, [] => some ([], cache)
  | cache, call :: calls => do
      let (size, cache) ← getShareSize shares fuel cache call
      let (sizes, cache) ← getShareSizes shares fuel cache calls
      return (size :: sizes, cache)

end SmartMedia.Search
