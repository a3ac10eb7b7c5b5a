import SmartMedia.Library.Parts
import SmartMedia.Search.ScoringEngine
import SmartMedia.Search.SearchService

/-!
# The links of the upstream service

`_transform_pansou_result`, `_sort_results` and `search` of `app/services/search_service.py`, from
the links of a JSON answer on and without a filter by size. An exception is `none`; the `search`
makes an empty answer of it. The content of a result, which is its title, and its empty channel
are left out.
-/
namespace SmartMedia.Search
open PythonRegex PythonText

section Values

/-- A JSON value. Of an array or an object only the number of its items is looked at. -/
inductive Value where
  | null
  | bool (b : Bool)
  | number (q : ℚ)
  | text (s : Text)
  | array (length : ℕ)
  | object (length : ℕ)
  deriving DecidableEq

namespace Value

/-- `not value` -/
def falsy : Value → Bool
  | null | bool false | text [] | array 0 | object 0 => true
  | number q => q = 0
  | _ => false

def isText : Value → Bool
  | text _ => true
  | _ => false

def hashable : Value → Bool
  | array _ | object _ => false
  | _ => true

def number? : Value → Option ℚ
  | bool b => some (if b then 1 else 0)
  | number q => some q
  | _ => none

/-- `v <= w`. The arrays that are compared have passed for no date, so they are empty. -/
def le? : Value → Value → Option Bool
  | text s, text t => some (textLe s t)
  | array 0, array 0 => some true
  | v, w => v.number?.bind fun q => w.number?.map fun r => q ≤ r

@[simp] theorem le?_null_left (v : Value) : null.le? v = none := rfl

@[simp] theorem le?_null_right (v : Value) : v.le? null = none := by
  cases v with
  | array length => cases length <;> rfl
  | _ => rfl

end Value

end Values

section Links

/-- A link as the upstream sends it. A field is `none` if it is missing. -/
structure Link where
  url : Option Value := none
  note : Option Value := none
  source : Option Value := none
  datetime : Option Value := none
  password : Option Value := none

/-- An entry of `cloud_links`. -/
structure FoundLink where
  type : Text
  url : Value
  password : Value
  title : Value
  deriving DecidableEq

structure LinkResult where
  id : Text
  title : Value
  source : Value
  pubDate : Value
  cloudType : Text
  cloudLinks : List FoundLink
  score : ℚ
  confidence : ℚ
  quality : ℚ
  popularity : ℚ
  freshness : ℚ
  tags : List Text
  fileSize : Option ℕ := none
  deriving DecidableEq

/-- `link.get("url", "")` and the like. -/
def getOr (default : Value) (field : Option Value) : Value := field.getD default

def Link.title (link : Link) : Value := getOr (.text []) link.note

def Link.pubDate (link : Link) : Value := getOr .null link.datetime

variable (calculators : Calculators) (hash : Value → Text) (keyword : Text)

/-- The score of a result: `name.lower()` of the title and `pub_date.replace` of a date that is
not falsy. -/
def scoreResult (title pubDate : Value) : Option ScoreDetail :=
  match title, pubDate with
  | .text title, .text date => some (score calculators {} keyword title (truthy (some date)))
  | .text title, date => if date.falsy then some (score calculators {} keyword title none) else none
  | _, _ => none

/-- One turn of the loop over the links. -/
def transformLink (link : Text × Link) : Option LinkResult :=
  let url := getOr (.text []) link.2.url
  let title := link.2.title
  if url.hashable then
    (scoreResult calculators keyword title link.2.pubDate).map fun detail =>
      { id := link.1 ++ '_' :: hash url
        title := title
        source := getOr (.text "unknown".toList) link.2.source
        pubDate := link.2.pubDate
        cloudType := link.1
        cloudLinks := [⟨link.1, url, getOr (.text []) link.2.password, title⟩]
        score := detail.score
        confidence := detail.confidence
        quality := detail.quality
        popularity := detail.popularity
        freshness := detail.freshness
        tags := detail.tags }
  else none

/-- The links of all types in the order of the loops. -/
def allLinks (mergedByType : List (Text × List Link)) : List (Text × Link) :=
  mergedByType.flatMap fun group => group.2.map fun link => (group.1, link)

def transformPansouResult (mergedByType : List (Text × List Link)) : Option (List LinkResult) :=
  (allLinks mergedByType).mapM (transformLink calculators hash keyword)

end Links

section Sorting

/-- `sorted(results, key=key, reverse=True)` of a key that is always there. -/
def sortedLinks {κ : Type} [LE κ] [DecidableLE κ] (key : LinkResult → κ)
    (results : List LinkResult) : List LinkResult :=
  results.insertionSort fun x y => key y ≤ key x

def Comparable (v w : Value) : Prop := (v.le? w).isSome = true

instance : DecidableRel Comparable := fun _ _ => inferInstanceAs (Decidable (_ = true))

/-- `_sort_results`. A sort compares every result with another one if there is one. -/
def sortLinks (sortBy : Option String) (results : List LinkResult) : Option (List LinkResult) :=
  if sortBy = none ∨ sortBy = some "" ∨ sortBy = some "score" then
    some (sortedLinks (·.score) results)
  else if sortBy = some "confidence" then some (sortedLinks (·.confidence) results)
  else if sortBy = some "quality" then some (sortedLinks (·.quality) results)
  else if sortBy = some "time" then
    if results.Pairwise fun x y => Comparable x.pubDate y.pubDate then
      some (results.insertionSort fun x y => y.pubDate.le? x.pubDate = some true)
    else none
  else if sortBy = some "size" then some (sortedLinks (·.fileSize.getD 0) results)
  else some results

end Sorting

section Search

structure LinkPage where
  results : List LinkResult
  total : ℕ
  page : ℕ
  pageSize : ℕ
  hasMore : Bool
  /-- Whether the answer names an error. -/
  error : Bool

/-- `search` without a filter by size. -/
def searchLinks (calculators : Calculators) (hash : Value → Text) (keyword : Text)
    (mergedByType : List (Text × List Link)) (sortBy : Option String) (page pageSize : ℕ) :
    LinkPage :=
  match (transformPansouResult calculators hash keyword mergedByType).bind (sortLinks sortBy) with
  | none => ⟨[], 0, page, pageSize, false, true⟩
  | some allResults =>
      let startIdx := (page - 1) * pageSize
      let endIdx := startIdx + pageSize
      ⟨(allResults.drop startIdx).take pageSize, allResults.length, page, pageSize,
        endIdx < allResults.length, false⟩

end Search

section Texts

/-- A result whose fields are texts, except that its date may be missing. -/
def ofSearchResult (result : SearchResult) : LinkResult where
  id := result.id
  title := .text result.title
  source := .text result.source
  pubDate := (result.pubDate.map .text).getD .null
  cloudType := result.cloudType
  cloudLinks := result.cloudLinks.map fun link =>
    ⟨link.type, .text link.url, .text link.password, .text link.title⟩
  score := result.score
  confidence := result.confidence
  quality := result.quality
  popularity := result.popularity
  freshness := result.freshness
  tags := result.tags
  fileSize := result.fileSize

theorem sortedLinks_map {κ : Type} [LinearOrder κ] (key : LinkResult → κ)
    (results : List SearchResult) : sortedLinks key (results.map ofSearchResult) =
      (sortedBy (· ≤ ·) (fun result => key (ofSearchResult result)) results).map ofSearchResult := by
  symm
  exact List.map_insertionSort _ _ _ _ fun _ _ _ _ => Iff.rfl

theorem few_or_dated {results : List SearchResult}
    (h : ¬ (1 < results.length ∧ results.any (·.pubDate.isNone) = true)) :
    results = [] ∨ (∃ r, results = [r]) ∨ ∀ r ∈ results, ∃ date, r.pubDate = some date := by
  cases results with
  | nil => exact .inl rfl
  | cons r results =>
      cases results with
      | nil => exact .inr (.inl ⟨r, rfl⟩)
      | cons r' results =>
          refine .inr (.inr fun x hx => Option.isSome_iff_exists.mp ?_)
          by_contra hdate
          refine h ⟨Nat.one_lt_succ_succ _, List.any_eq_true.mpr ⟨x, hx, ?_⟩⟩
          exact Option.isNone_iff_eq_none.mpr (Option.not_isSome_iff_eq_none.mp hdate)

theorem pubDate_of_dated {r : SearchResult} {date : Text} (h : r.pubDate = some date) :
    (ofSearchResult r).pubDate = .text date := by
  rw [ofSearchResult, h]
  rfl

/-- Of several results all must have a date. -/
theorem comparable_iff (results : List SearchResult) :
    ((results.map ofSearchResult).Pairwise fun x y => Comparable x.pubDate y.pubDate) ↔
      ¬ (1 < results.length ∧ results.any (·.pubDate.isNone) = true) := by
  rw [List.pairwise_map]
  constructor
  · rintro hpair ⟨hmany, hnone⟩
    obtain ⟨r, hr, hdate⟩ := List.any_eq_true.mp hnone
    have hnull : (ofSearchResult r).pubDate = .null := by
      rw [ofSearchResult, Option.isNone_iff_eq_none.mp hdate]
      rfl
    obtain ⟨before, after, rfl⟩ := List.append_of_mem hr
    obtain ⟨-, hafter, hbefore⟩ := List.pairwise_append.mp hpair
    cases before with
    | cons x before =>
        have hx := hbefore x List.mem_cons_self r List.mem_cons_self
        rw [hnull, Comparable, Value.le?_null_right] at hx
        cases hx
    | nil =>
        cases after with
        | nil => exact lt_irrefl 1 hmany
        | cons y after =>
            have hy := List.rel_of_pairwise_cons hafter List.mem_cons_self
            rw [hnull, Comparable, Value.le?_null_left] at hy
            cases hy
  · intro h
    rcases few_or_dated h with rfl | ⟨r, rfl⟩ | hdated
    · exact List.Pairwise.nil
    · exact List.pairwise_singleton _ r
    · refine List.pairwise_of_forall_mem_list fun x hx y hy => ?_
      obtain ⟨date, hdate⟩ := hdated x hx
      obtain ⟨date', hdate'⟩ := hdated y hy
      rw [pubDate_of_dated hdate, pubDate_of_dated hdate']
      rfl

theorem sortLinks_map (sortBy : Option String) (results : List SearchResult) :
    sortLinks sortBy (results.map ofSearchResult) =
      (sortResults sortBy results).map (List.map ofSearchResult) := by
  unfold sortLinks sortResults
  split_ifs with hscore hconfidence hquality htime hcomparable hundated hundated hsize
  · rw [sortedLinks_map]
    rfl
  · rw [sortedLinks_map]
    rfl
  · rw [sortedLinks_map]
    rfl
  · exact absurd hundated ((comparable_iff results).mp hcomparable)
  · rcases few_or_dated hundated with rfl | ⟨r, rfl⟩ | hdated
    · rfl
    · rfl
    · refine congrArg some (List.map_insertionSort _ _ _ _ fun x hx y hy => ?_).symm
      obtain ⟨date, hdate⟩ := hdated x hx
      obtain ⟨date', hdate'⟩ := hdated y hy
      beta_reduce
      rw [pubDate_of_dated hdate, pubDate_of_dated hdate', hdate, hdate']
      exact Option.some_inj.symm
  · rfl
  · exact absurd ((comparable_iff results).mpr hundated) hcomparable
  · rw [sortedLinks_map]
    rfl
  · rfl

/-- Where the fields are texts, the answer is that of the typed search. -/
theorem searchLinks_map {calculators : Calculators} {hash : Value → Text} {keyword : Text}
    {mergedByType : List (Text × List Link)} {results : List SearchResult}
    (htexts : transformPansouResult calculators hash keyword mergedByType =
      some (results.map ofSearchResult))
    (getShareSize : Text → Text → Option ℕ) (sortBy : Option String) (page pageSize : ℕ) :
    let answer := searchLinks calculators hash keyword mergedByType sortBy page pageSize
    let typed := search getShareSize results page pageSize sortBy 0
    answer.results = typed.results.map ofSearchResult ∧ answer.total = typed.total ∧
      answer.hasMore = typed.hasMore ∧ answer.error = typed.error := by
  have hsize : applySizeFilter getShareSize results 0 = results := rfl
  simp only [searchLinks, search, htexts, Option.bind_some, sortLinks_map, hsize]
  cases sortResults sortBy results with
  | none => exact ⟨rfl, rfl, rfl, rfl⟩
  | some all => simp

end Texts

end SmartMedia.Search
