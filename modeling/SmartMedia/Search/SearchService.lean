import Mathlib.Algebra.Order.Ring.Rat
import Mathlib.Data.List.Sort
import SmartMedia.Library.PythonRegex
import SmartMedia.Library.PythonText

/-!
# Searching

`ResourceSearchService` of `app/services/search_service.py`, from the scored results of the
upstream service on. Without the texts that only show a size.
-/
namespace SmartMedia.Search
open PythonRegex PythonRegex.Pattern PythonText

structure CloudLink where
  type : Text
  url : Text
  password : Text
  title : Text
  size : Option ℕ := none
  deriving DecidableEq, Repr

structure SearchResult where
  id : Text
  title : Text
  source : Text
  pubDate : Option Text
  cloudType : Text
  cloudLinks : List CloudLink
  score : ℚ
  confidence : ℚ
  quality : ℚ
  popularity : ℚ
  freshness : ℚ
  tags : List Text
  fileSize : Option ℕ := none
  deriving DecidableEq

section SizeFetcher

/-- `https?://pan\.quark\.cn/s/([a-zA-Z0-9_-]+)` -/
def shareUrlPattern : Pattern :=
  seqs (exactly "http".toList) [opt (· = 's'), exactly "://pan.quark.cn/s/".toList,
    group "1" (oneOrMore fun c => c.isAlphanum || c = '_' || c = '-')]

def extractShareKey (url : Text) : Option Text :=
  (shareUrlPattern.search url).bind fun m => m.groups.lookup "1"

/-- `batch_get_sizes`; `getShareSize` is what the shares have, if that is found out. -/
def batchGetSizes (getShareSize : Text → Text → Option ℕ) (items : List CloudLink)
    (minSizeBytes : ℕ) : List (Text × ℕ) :=
  items.foldl (fun results item =>
    match extractShareKey item.url with
    | none => results
    | some shareKey =>
        match (getShareSize shareKey item.password).filter (minSizeBytes ≤ ·) with
        | none => results
        | some size => (shareKey, size) :: results) []

end SizeFetcher

section SizeFilter
variable (sizeMap : List (Text × ℕ)) (minSizeBytes : ℕ)

def isQuark (link : CloudLink) : Bool := link.type = "quark".toList

/-- The size of a link, if it is large enough. -/
def validSize (link : CloudLink) : Option ℕ :=
  if isQuark link then
    ((extractShareKey link.url).bind fun shareKey => sizeMap.lookup shareKey).filter
      (minSizeBytes ≤ ·)
  else none

/-- The size of the last link that is large enough. -/
def resultSize (result : SearchResult) : Option ℕ :=
  (result.cloudLinks.filterMap (validSize sizeMap minSizeBytes)).getLast?

/-- The sizes are written into the links. -/
def withLinkSizes (result : SearchResult) : SearchResult :=
  { result with cloudLinks := result.cloudLinks.map fun link =>
      { link with size := (validSize sizeMap minSizeBytes link).or link.size } }

/-- A result among the first twenty, after the loop has passed it. -/
def withFileSize (result : SearchResult) : SearchResult :=
  { withLinkSizes sizeMap minSizeBytes result with
    fileSize := (resultSize sizeMap minSizeBytes result).or result.fileSize }

/-- What the loop makes of the result at a place, if it is kept. The first twenty are objects that
the loop changes; a result that equals one of them counts as one. -/
def keep (topQuarkResults : List (SearchResult × ℕ)) (result : SearchResult) (index : ℕ) :
    Option SearchResult :=
  if result.cloudLinks.any isQuark = false then some result
  else if topQuarkResults.any fun top =>
      top.2 = index ∨
        (if top.2 < index then withFileSize sizeMap minSizeBytes top.1 else top.1) = result then
    if (resultSize sizeMap minSizeBytes result).isSome then
      some (withFileSize sizeMap minSizeBytes result)
    else if sizeMap = [] then some result
    else none
  else some (withLinkSizes sizeMap minSizeBytes result)

end SizeFilter

section Sorting

/-- `sorted(results, key=key, reverse=True)`, which keeps the order of equals. -/
def sortedBy {κ : Type} (le : κ → κ → Prop) [DecidableRel le] (key : SearchResult → κ)
    (results : List SearchResult) : List SearchResult :=
  results.insertionSort fun x y => le (key y) (key x)

/-- `_apply_size_filter`. -/
def applySizeFilter (getShareSize : Text → Text → Option ℕ) (results : List SearchResult)
    (minSizeBytes : ℕ) : List SearchResult :=
  if minSizeBytes = 0 then results
  else
    let quarkResults := results.zipIdx.filter fun result => result.1.cloudLinks.any isQuark
    let topQuarkResults :=
      (quarkResults.insertionSort fun x y => y.1.score ≤ x.1.score).take 20
    let quarkItems := topQuarkResults.flatMap fun result => result.1.cloudLinks.filter fun link =>
      isQuark link && (extractShareKey link.url).isSome
    let sizeMap := batchGetSizes getShareSize quarkItems minSizeBytes
    results.zipIdx.filterMap fun result =>
      keep sizeMap minSizeBytes topQuarkResults result.1 result.2

/-- `_sort_results`; dates cannot be compared with none. -/
def sortResults (sortBy : Option String) (results : List SearchResult) :
    Option (List SearchResult) :=
  if sortBy = none ∨ sortBy = some "" ∨ sortBy = some "score" then
    some (sortedBy (· ≤ ·) (·.score) results)
  else if sortBy = some "confidence" then some (sortedBy (· ≤ ·) (·.confidence) results)
  else if sortBy = some "quality" then some (sortedBy (· ≤ ·) (·.quality) results)
  else if sortBy = some "time" then
    if 1 < results.length ∧ results.any (·.pubDate.isNone) then none
    else some (sortedBy (textLe · · = true) (·.pubDate.getD []) results)
  else if sortBy = some "size" then some (sortedBy (· ≤ ·) (·.fileSize.getD 0) results)
  else some results

end Sorting

section Search

structure SearchPage where
  results : List SearchResult
  total : ℕ
  page : ℕ
  pageSize : ℕ
  hasMore : Bool
  /-- Whether the answer names an error. -/
  error : Bool

variable (getShareSize : Text → Text → Option ℕ) (results : List SearchResult)

/-- `search`. -/
def search (page pageSize : ℕ) (sortBy : Option String) (minFileSize : ℕ) : SearchPage :=
  match sortResults sortBy (applySizeFilter getShareSize results minFileSize) with
  | none => ⟨[], 0, page, pageSize, false, true⟩
  | some allResults =>
      let startIdx := (page - 1) * pageSize
      let endIdx := startIdx + pageSize
      ⟨(allResults.drop startIdx).take pageSize, allResults.length, page, pageSize,
        endIdx < allResults.length, false⟩

/-- The result meets both thresholds. -/
def meets (minScore minConfidence : ℚ) (result : SearchResult) : Bool :=
  minScore ≤ result.score ∧ minConfidence ≤ result.confidence

/-- `search_with_filters`. -/
def searchWithFilters (minScore minConfidence : ℚ) (page pageSize : ℕ) (sortBy : Option String)
    (minFileSize : ℕ) : SearchPage :=
  let result := search getShareSize results page pageSize sortBy minFileSize
  if result.error then result
  else
    let filteredResults := result.results.filter (meets minScore minConfidence)
    { result with results := filteredResults, total := filteredResults.length }

end Search

end SmartMedia.Search
