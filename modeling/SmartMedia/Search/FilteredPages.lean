import SmartMedia.Library.Paging
import SmartMedia.Library.StableSort
import SmartMedia.Search.SearchService

/-!
# Pages of filtered results

`search_with_filters` applies the thresholds to a page that is already cut. Its pages have every
result that meets them, but they are short and each counts its own results only.
-/
namespace SmartMedia.Search
open PythonText PythonRegex

section Sorted
variable {sortBy : Option String} {results all : List SearchResult}

theorem length_sortedBy {κ : Type} {le : κ → κ → Prop} [DecidableRel le]
    (key : SearchResult → κ) (results : List SearchResult) :
    (sortedBy le key results).length = results.length :=
  List.length_insertionSort _ _

theorem filter_sortedBy {κ : Type} (le : κ → κ → Prop) [DecidableRel le]
    (htrans : ∀ a b c, le a b → le b c → le a c) (htotal : ∀ a b, le a b ∨ le b a)
    (key : SearchResult → κ) (p : SearchResult → Bool) (results : List SearchResult) :
    (sortedBy le key results).filter p = sortedBy le key (results.filter p) := by
  apply StableSort.filter_insertionSort
  · intro x y z hxy hyz
    exact htrans _ _ _ hyz hxy
  · intro x y
    exact htotal _ _

/-- Some of the results that would have to be compared by their dates have none. -/
def Unsortable (sortBy : Option String) (results : List SearchResult) : Prop :=
  sortBy = some "time" ∧ 1 < results.length ∧ results.any (·.pubDate.isNone) = true

instance : DecidablePred (Unsortable sortBy) := fun results =>
  inferInstanceAs (Decidable (sortBy = some "time" ∧ 1 < results.length ∧
    results.any (·.pubDate.isNone) = true))

/-- The sort of the results, whatever it is by. -/
theorem exists_sorter (sortBy : Option String) :
    ∃ sorter : List SearchResult → List SearchResult,
      (∀ results, (sorter results).length = results.length) ∧
      (∀ p results, (sorter results).filter p = sorter (results.filter p)) ∧
      ∀ results, sortResults sortBy results =
        if Unsortable sortBy results then none else some (sorter results) := by
  have hby : ∀ {κ : Type} [LinearOrder κ] (key : SearchResult → κ), sortBy ≠ some "time" →
      (∀ results, sortResults sortBy results = some (sortedBy (· ≤ ·) key results)) →
      ∃ sorter : List SearchResult → List SearchResult,
        (∀ results, (sorter results).length = results.length) ∧
        (∀ p results, (sorter results).filter p = sorter (results.filter p)) ∧
        ∀ results, sortResults sortBy results =
          if Unsortable sortBy results then none else some (sorter results) := by
    intro κ _ key hne h
    refine ⟨sortedBy (· ≤ ·) key, length_sortedBy key,
      filter_sortedBy (· ≤ ·) (fun _ _ _ => le_trans) le_total key, fun results => ?_⟩
    rw [h, if_neg fun hno => hne hno.1]
  by_cases hscore : sortBy = none ∨ sortBy = some "" ∨ sortBy = some "score"
  · refine hby (·.score) ?_ fun results => by rw [sortResults, if_pos hscore]
    rcases hscore with rfl | rfl | rfl
    · decide
    · decide
    · decide
  by_cases hconfidence : sortBy = some "confidence"
  · refine hby (·.confidence) ?_ fun results => by
      rw [sortResults, if_neg hscore, if_pos hconfidence]
    rw [hconfidence]
    decide
  by_cases hquality : sortBy = some "quality"
  · refine hby (·.quality) ?_ fun results => by
      rw [sortResults, if_neg hscore, if_neg hconfidence, if_pos hquality]
    rw [hquality]
    decide
  by_cases htime : sortBy = some "time"
  · refine ⟨sortedBy (textLe · · = true) (·.pubDate.getD []), length_sortedBy _,
      filter_sortedBy (textLe · · = true) (fun _ _ _ => textLe_trans) textLe_total _, fun results => ?_⟩
    rw [sortResults, if_neg hscore, if_neg hconfidence, if_neg hquality, if_pos htime]
    by_cases hno : Unsortable sortBy results
    · rw [if_pos hno, if_pos hno.2]
    · rw [if_neg hno, if_neg fun h => hno ⟨htime, h⟩]
  by_cases hsize : sortBy = some "size"
  · exact hby (·.fileSize.getD 0) htime fun results => by
      rw [sortResults, if_neg hscore, if_neg hconfidence, if_neg hquality, if_neg htime,
        if_pos hsize]
  refine ⟨id, fun _ => rfl, fun _ _ => rfl, fun results => ?_⟩
  rw [sortResults, if_neg hscore, if_neg hconfidence, if_neg hquality, if_neg htime, if_neg hsize,
    if_neg fun h => htime h.1]
  rfl

theorem Unsortable.of_filter {p : SearchResult → Bool}
    (h : Unsortable sortBy (results.filter p)) : Unsortable sortBy results := by
  refine ⟨h.1, h.2.1.trans_le (List.length_filter_le p results), ?_⟩
  obtain ⟨r, hr, hnone⟩ := List.any_eq_true.mp h.2.2
  exact List.any_eq_true.mpr ⟨r, List.mem_of_mem_filter hr, hnone⟩

end Sorted

section Pages
variable (getShareSize : Text → Text → Option ℕ) (results : List SearchResult)
  (minScore minConfidence : ℚ) (sortBy : Option String) (minFileSize : ℕ)

/-- The pages up to the first one after which there are no more have the wanted results. -/
structure IsPartition (answer : ℕ → SearchPage) (pageSize last : ℕ)
    (wanted : List SearchResult) : Prop where
  ok : ∀ page, 1 ≤ page → page ≤ last → (answer page).error = false
  more : ∀ page, 1 ≤ page → page < last → (answer page).hasMore = true
  done : (answer last).hasMore = false
  contents : ((List.range' 1 last).flatMap fun page => (answer page).results) = wanted
  full : ∀ page, 1 ≤ page → page < last → (answer page).results.length = pageSize
  total : ∀ page, 1 ≤ page → page ≤ last → (answer page).total = wanted.length

/-- A page as it is answered if the results can be sorted. -/
theorem searchWithFilters_eq {all : List SearchResult} (page pageSize : ℕ)
    (h : sortResults sortBy (applySizeFilter getShareSize results minFileSize) = some all) :
    searchWithFilters getShareSize results minScore minConfidence page pageSize sortBy minFileSize =
      let filtered :=
        ((all.drop ((page - 1) * pageSize)).take pageSize).filter (meets minScore minConfidence)
      ⟨filtered, filtered.length, page, pageSize, (page - 1) * pageSize + pageSize < all.length,
        false⟩ := by
  rw [searchWithFilters, search, h]
  rfl

/-- However many pages are asked for, they have what meets the thresholds among the results that
are on them. -/
theorem searchWithFilters_contents {all : List SearchResult} (pages pageSize : ℕ)
    (h : sortResults sortBy (applySizeFilter getShareSize results minFileSize) = some all) :
    ((List.range' 1 pages).flatMap fun page => (searchWithFilters getShareSize results minScore
      minConfidence page pageSize sortBy minFileSize).results) =
      (all.take (pages * pageSize)).filter (meets minScore minConfidence) := by
  simp only [searchWithFilters_eq getShareSize results minScore minConfidence sortBy minFileSize
    _ pageSize h]
  rw [← List.filter_flatMap, Paging.windows_flatMap]

/-- The pages are right exactly if there is only one, and its results can be sorted. -/
theorem pages_partition_iff (pageSize : ℕ) (hsize : 1 ≤ pageSize) :
    (∃ last wanted, 1 ≤ last ∧
      sortResults sortBy ((applySizeFilter getShareSize results minFileSize).filter
        (meets minScore minConfidence)) = some wanted ∧
      IsPartition (fun page => searchWithFilters getShareSize results minScore minConfidence page
        pageSize sortBy minFileSize) pageSize last wanted) ↔
      ¬ Unsortable sortBy (applySizeFilter getShareSize results minFileSize) ∧
        (applySizeFilter getShareSize results minFileSize).length ≤ pageSize := by
  obtain ⟨sorter, hlength, hfilter, hsort⟩ := exists_sorter sortBy
  set sized := applySizeFilter getShareSize results minFileSize with hsized
  constructor
  · rintro ⟨last, wanted, hlast, -, h⟩
    have hsortable : ¬ Unsortable sortBy sized := by
      intro hno
      have hok := h.ok 1 le_rfl hlast
      simp only [searchWithFilters, search, ← hsized, hsort, if_pos hno] at hok
      cases hok
    have hall := (hsort sized).trans (if_neg hsortable)
    have hpage := fun page => searchWithFilters_eq getShareSize results minScore minConfidence
      sortBy minFileSize page pageSize hall
    refine ⟨hsortable, ?_⟩
    by_contra hmore
    have hcount : ∀ page, 1 ≤ page → page ≤ last →
        (searchWithFilters getShareSize results minScore minConfidence page pageSize sortBy
          minFileSize).results.length = wanted.length := by
      intro page hpos hle
      rw [← h.total page hpos hle]
      simp only [hpage]
    cases last with
    | zero => omega
    | succ more =>
        cases more with
        | zero =>
            have hdone := h.done
            simp only [hpage, hlength] at hdone
            have hfalse := of_decide_eq_false hdone
            omega
        | succ more =>
            -- the first two pages alone have more than each of them counts
            have hcontents := congrArg List.length h.contents
            rw [List.range'_succ, List.range'_succ, List.flatMap_cons, List.flatMap_cons,
              List.length_append, List.length_append, hcount 1 le_rfl (by omega),
              hcount (1 + 1) (by omega) (by omega)] at hcontents
            have hfull := h.full 1 le_rfl (by omega)
            rw [hcount 1 le_rfl (by omega)] at hfull
            omega
  · rintro ⟨hsortable, hone⟩
    have hall := (hsort sized).trans (if_neg hsortable)
    have hpage := searchWithFilters_eq getShareSize results minScore minConfidence sortBy
      minFileSize 1 pageSize hall
    have hwindow : ((sorter sized).drop ((1 - 1) * pageSize)).take pageSize = sorter sized := by
      rw [Nat.sub_self, Nat.zero_mul, List.drop_zero, List.take_of_length_le]
      rw [hlength]
      exact hone
    simp only [hwindow] at hpage
    refine ⟨1, (sorter sized).filter (meets minScore minConfidence), le_rfl, ?_, ?_, ?_, ?_, ?_, ?_,
      ?_⟩
    · rw [hsort, if_neg fun hno => hsortable hno.of_filter, hfilter]
    · intro page hpos hle
      obtain rfl : page = 1 := by omega
      rw [hpage]
    · intro page hpos hlt
      omega
    · rw [hpage]
      simp only [decide_eq_false_iff_not, hlength]
      omega
    · rw [List.range'_one, List.flatMap_singleton, hpage]
    · intro page hpos hlt
      omega
    · intro page hpos hle
      obtain rfl : page = 1 := by omega
      rw [hpage]

end Pages

section Samples

def sample (score : ℚ) : SearchResult where
  id := []
  title := []
  source := []
  pubDate := none
  cloudType := []
  cloudLinks := []
  score := score
  confidence := 1
  quality := 0
  popularity := 0
  freshness := 0
  tags := []

/-- With one result on a page, the second page counts none. -/
theorem twoPages_differ : ¬ ∃ last wanted, 1 ≤ last ∧
    sortResults none ((applySizeFilter (fun _ _ => none) [sample 1, sample 0] 0).filter
      (meets (1 / 2) (1 / 2))) = some wanted ∧
    IsPartition (fun page => searchWithFilters (fun _ _ => none) [sample 1, sample 0] (1 / 2) (1 / 2)
      page 1 none 0) 1 last wanted := by
  rintro ⟨last, wanted, hlast, -, h⟩
  have hmore : (searchWithFilters (fun _ _ => none) [sample 1, sample 0] (1 / 2) (1 / 2) 1 1 none
    0).hasMore = true := by decide +kernel
  have hfirst : (searchWithFilters (fun _ _ => none) [sample 1, sample 0] (1 / 2) (1 / 2) 1 1 none
    0).total = 1 := by decide +kernel
  have hsecond : (searchWithFilters (fun _ _ => none) [sample 1, sample 0] (1 / 2) (1 / 2) 2 1 none
    0).total = 0 := by decide +kernel
  have hlater : 2 ≤ last := by
    by_contra hone
    obtain rfl : last = 1 := by omega
    have hdone := h.done
    simp only [hmore] at hdone
    cases hdone
  have htotal := h.total 1 le_rfl hlast
  have htotal' := h.total 2 (by omega) hlater
  simp only [hfirst] at htotal
  simp only [hsecond] at htotal'
  omega

theorem onePage_partition : ∃ last wanted, 1 ≤ last ∧
    sortResults none ((applySizeFilter (fun _ _ => none) [sample 1, sample 0] 0).filter
      (meets (1 / 2) (1 / 2))) = some wanted ∧
    IsPartition (fun page => searchWithFilters (fun _ _ => none) [sample 1, sample 0] (1 / 2) (1 / 2)
      page 2 none 0) 2 last wanted :=
  (pages_partition_iff (fun _ _ => none) [sample 1, sample 0] (1 / 2) (1 / 2) none 0 2
    (by decide)).mpr ⟨by decide +kernel, by decide +kernel⟩

end Samples

end SmartMedia.Search
