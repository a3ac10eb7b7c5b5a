import SmartMedia.Library.Paging
import SmartMedia.Library.StableSort
import SmartMedia.Search.PansouLinks

/-!
# Pages of sorted results

All pages together have every result, in the order of the key. The answer is an empty one if a
result cannot be scored or if the dates of two results cannot be compared, as where one of them
has none.
-/
namespace SmartMedia.Search
open PythonRegex PythonText

section Dates
variable {u v w : Value}

theorem Value.le?_eq_true_iff : v.le? w = some true ↔
    (∃ s t, v = .text s ∧ w = .text t ∧ textLe s t = true) ∨ (v = .array 0 ∧ w = .array 0) ∨
      ∃ q r, v.number? = some q ∧ w.number? = some r ∧ q ≤ r := by
  fun_cases Value.le? v w with
  | case1 s t => simp [Value.number?]
  | case2 => simp [Value.number?]
  | case3 v w htext harray =>
      constructor
      · intro h
        obtain ⟨q, hq, h⟩ := Option.bind_eq_some_iff.mp h
        obtain ⟨r, hr, h⟩ := Option.map_eq_some_iff.mp h
        exact .inr (.inr ⟨q, r, hq, hr, of_decide_eq_true h⟩)
      · rintro (⟨s, t, hv, hw, -⟩ | ⟨hv, hw⟩ | ⟨q, r, hq, hr, h⟩)
        · exact absurd hw (htext s t hv)
        · exact absurd hw (harray hv)
        · rw [hq, hr, Option.bind_some, Option.map_some, decide_eq_true h]

theorem Value.le?_trans (h : u.le? v = some true) (h' : v.le? w = some true) :
    u.le? w = some true := by
  rw [Value.le?_eq_true_iff] at h h' ⊢
  rcases h with ⟨s, t, rfl, rfl, h⟩ | ⟨rfl, rfl⟩ | ⟨q, r, hq, hr, h⟩
  · rcases h' with ⟨s', t', heq, rfl, h'⟩ | ⟨heq, -⟩ | ⟨q, r, hq, -, -⟩
    · cases heq
      exact .inl ⟨s, t', rfl, rfl, textLe_trans h h'⟩
    · cases heq
    · cases hq
  · rcases h' with ⟨s', t', heq, -, -⟩ | ⟨-, rfl⟩ | ⟨q, r, hq, -, -⟩
    · cases heq
    · exact .inr (.inl ⟨rfl, rfl⟩)
    · cases hq
  · rcases h' with ⟨s', t', rfl, -, -⟩ | ⟨rfl, -⟩ | ⟨q', r', hq', hr', h'⟩
    · cases hr
    · cases hr
    · obtain rfl : r = q' := Option.some_inj.mp (hr.symm.trans hq')
      exact .inr (.inr ⟨q, r', hq, hr', h.trans h'⟩)

theorem Comparable.total (h : Comparable v w) : v.le? w = some true ∨ w.le? v = some true := by
  unfold Comparable at h
  revert h
  fun_cases Value.le? v w with
  | case1 s t =>
      intro _
      rcases textLe_total s t with h | h
      · exact .inl (congrArg some h)
      · exact .inr (congrArg some h)
  | case2 => exact fun _ => .inl rfl
  | case3 v w =>
      intro h
      obtain ⟨b, hb⟩ := Option.isSome_iff_exists.mp h
      obtain ⟨q, hq, h⟩ := Option.bind_eq_some_iff.mp hb
      obtain ⟨r, hr, -⟩ := Option.map_eq_some_iff.mp h
      rcases le_total q r with hle | hle
      · rw [hq, hr, Option.bind_some, Option.map_some, decide_eq_true hle]
        exact .inl rfl
      · exact .inr (Value.le?_eq_true_iff.mpr (.inr (.inr ⟨r, q, hr, hq, hle⟩)))

end Dates

section Order

/-- `x` may stand before `y`: the key of `y` is not greater, or `y` has none. -/
def InOrder (sortBy : Option String) (x y : LinkResult) : Prop :=
  if sortBy = none ∨ sortBy = some "" ∨ sortBy = some "score" then y.score ≤ x.score
  else if sortBy = some "confidence" then y.confidence ≤ x.confidence
  else if sortBy = some "quality" then y.quality ≤ x.quality
  else if sortBy = some "time" then y.pubDate = .null ∨ y.pubDate.le? x.pubDate = some true
  else if sortBy = some "size" then
    y.fileSize = none ∨ ∃ size size', y.fileSize = some size ∧ x.fileSize = some size' ∧ size ≤ size'
  else True

variable {results all : List LinkResult} {sortBy : Option String}

theorem perm_sortedLinks {κ : Type} [LinearOrder κ] (key : LinkResult → κ)
    (results : List LinkResult) : (sortedLinks key results).Perm results :=
  List.perm_insertionSort _ results

theorem pairwise_sortedLinks {κ : Type} [LinearOrder κ] (key : LinkResult → κ)
    (results : List LinkResult) : (sortedLinks key results).Pairwise fun x y => key y ≤ key x :=
  StableSort.pairwise_insertionSort (fun _ _ _ h h' => h'.trans h) (fun _ _ => le_total _ _) results

theorem sortLinks_eq_none_iff : sortLinks sortBy results = none ↔
    sortBy = some "time" ∧ ¬ results.Pairwise fun x y => Comparable x.pubDate y.pubDate := by
  unfold sortLinks
  split_ifs with hscore hconfidence hquality htime hcomparable hsize
  · simpa using fun h => hscore.elim (by simp [h]) (by simp [h])
  all_goals simp_all

theorem sortLinks_spec (hsizes : ∀ r ∈ results, r.fileSize = none)
    (h : sortLinks sortBy results = some all) : all.Perm results ∧ all.Pairwise (InOrder sortBy) := by
  unfold sortLinks at h
  unfold InOrder
  split_ifs at h ⊢ with hscore hconfidence hquality htime hcomparable hsize
  · obtain rfl := Option.some_inj.mp h
    exact ⟨perm_sortedLinks _ results, pairwise_sortedLinks _ results⟩
  · obtain rfl := Option.some_inj.mp h
    exact ⟨perm_sortedLinks _ results, pairwise_sortedLinks _ results⟩
  · obtain rfl := Option.some_inj.mp h
    exact ⟨perm_sortedLinks _ results, pairwise_sortedLinks _ results⟩
  · obtain rfl := Option.some_inj.mp h
    refine ⟨List.perm_insertionSort _ results, List.Pairwise.imp .inr ?_⟩
    refine StableSort.pairwise_insertionSort_of_pairwise ?_ (hcomparable.imp fun hxy => ?_)
    · intro x y z hxy hyz
      exact Value.le?_trans hyz hxy
    · exact hxy.total.symm
  · obtain rfl := Option.some_inj.mp h
    refine ⟨perm_sortedLinks _ results, List.pairwise_of_forall_mem_list fun x hx y hy => .inl ?_⟩
    exact hsizes y ((perm_sortedLinks _ results).mem_iff.mp hy)
  · obtain rfl := Option.some_inj.mp h
    exact ⟨List.Perm.refl _, List.pairwise_of_forall fun _ _ => trivial⟩

end Order

section Transform
variable {calculators : Calculators} {hash : Value → Text} {keyword : Text}
  {mergedByType : List (Text × List Link)} {results : List LinkResult}

/-- The link has a title, its address can be hashed, and its date is a text or falsy. -/
def Link.Scorable (link : Link) : Prop :=
  link.title.isText = true ∧ (getOr (.text []) link.url).hashable = true ∧
    (link.pubDate.isText = true ∨ link.pubDate.falsy = true)

theorem scoreResult_isSome_iff {title pubDate : Value} :
    (scoreResult calculators keyword title pubDate).isSome = true ↔
      title.isText = true ∧ (pubDate.isText = true ∨ pubDate.falsy = true) := by
  fun_cases scoreResult calculators keyword title pubDate with
  | case1 title date => simp [Value.isText]
  | case2 title date hdate hfalsy => simp [Value.isText, hfalsy]
  | case3 title date hdate hfalsy =>
      have htext : pubDate.isText = false := by
        cases pubDate with
        | text date => exact (hdate date rfl).elim
        | _ => rfl
      simp [htext, hfalsy]
  | case4 _ _ hnone _ =>
      have htext : title.isText = false := by
        cases title with
        | text title => exact (hnone title rfl).elim
        | _ => rfl
      simp [htext]

theorem transformLink_isSome_iff {link : Text × Link} :
    (transformLink calculators hash keyword link).isSome = true ↔ link.2.Scorable := by
  simp only [transformLink, Link.Scorable]
  split_ifs with hhash
  · rw [Option.isSome_map, scoreResult_isSome_iff]
    simp [hhash]
  · simp [hhash]

theorem transformLink_keeps {link : Text × Link} {result : LinkResult}
    (h : transformLink calculators hash keyword link = some result) :
    result.pubDate = link.2.pubDate ∧ result.fileSize = none := by
  simp only [transformLink] at h
  split_ifs at h
  obtain ⟨detail, -, rfl⟩ := Option.map_eq_some_iff.mp h
  exact ⟨rfl, rfl⟩

variable (calculators hash keyword) in
theorem transformPansouResult_isSome_iff :
    (transformPansouResult calculators hash keyword mergedByType).isSome = true ↔
      ∀ link ∈ allLinks mergedByType, link.2.Scorable := by
  rw [transformPansouResult, Parts.isSome_mapM_iff]
  simp only [transformLink_isSome_iff]

/-- The results have the dates of the links, and no sizes. -/
theorem transformPansouResult_keeps
    (h : transformPansouResult calculators hash keyword mergedByType = some results) :
    results.map (·.pubDate) = (allLinks mergedByType).map (·.2.pubDate) ∧
      ∀ r ∈ results, r.fileSize = none := by
  have hall := Parts.mapM_eq_some_iff.mp h
  clear h
  generalize allLinks mergedByType = links at hall ⊢
  induction hall with
  | nil => exact ⟨rfl, fun r hr => by cases hr⟩
  | cons hlink hrest ih =>
      obtain ⟨hdate, hsize⟩ := transformLink_keeps hlink
      refine ⟨?_, List.forall_mem_cons.mpr ⟨hsize, ih.2⟩⟩
      rw [List.map_cons, List.map_cons, hdate, ih.1]

end Transform

section Pages
variable (calculators : Calculators) (hash : Value → Text) (keyword : Text)
  (mergedByType : List (Text × List Link)) (sortBy : Option String) (pageSize : ℕ)

/-- No page is an error, and as many pages as there are results for have them all in order. -/
def LosesNothing : Prop :=
  let answer := fun page =>
    searchLinks calculators hash keyword mergedByType sortBy page pageSize
  ∃ transformed, transformPansouResult calculators hash keyword mergedByType = some transformed ∧
    (∀ page, 1 ≤ page → (answer page).error = false) ∧
    ∀ pages, transformed.length ≤ pages * pageSize →
      let joined := (List.range' 1 pages).flatMap fun page => (answer page).results
      joined.Perm transformed ∧ joined.Pairwise (InOrder sortBy)

/-- Sorting loses nothing exactly if every link can be scored and, for a sort by time, the dates of
any two of them can be compared. -/
theorem losesNothing_iff :
    LosesNothing calculators hash keyword mergedByType sortBy pageSize ↔
      (∀ link ∈ allLinks mergedByType, link.2.Scorable) ∧
        (sortBy = some "time" → (allLinks mergedByType).Pairwise fun link link' =>
          Comparable link.2.pubDate link'.2.pubDate) := by
  rw [← transformPansouResult_isSome_iff calculators hash keyword]
  cases htransform : transformPansouResult calculators hash keyword mergedByType with
  | none => simp [LosesNothing, htransform]
  | some results =>
      obtain ⟨hdates, hsizes⟩ := transformPansouResult_keeps htransform
      have hcomparable : ((allLinks mergedByType).Pairwise fun link link' =>
          Comparable link.2.pubDate link'.2.pubDate) ↔
            results.Pairwise fun x y => Comparable x.pubDate y.pubDate := by
        rw [← List.pairwise_map (f := fun link : Text × Link => link.2.pubDate) (R := Comparable),
          ← List.pairwise_map (f := fun x : LinkResult => x.pubDate) (R := Comparable), hdates]
      rw [hcomparable]
      constructor
      · rintro ⟨-, -, hok, -⟩
        refine ⟨rfl, fun htime => ?_⟩
        by_contra hnot
        have hfirst := hok 1 le_rfl
        simp only [searchLinks, htransform, Option.bind_some,
          sortLinks_eq_none_iff.mpr ⟨htime, hnot⟩] at hfirst
        cases hfirst
      · rintro ⟨-, hsortable⟩
        have hsome : sortLinks sortBy results ≠ none := fun hnone =>
          (sortLinks_eq_none_iff.mp hnone).2 (hsortable (sortLinks_eq_none_iff.mp hnone).1)
        obtain ⟨all, hall⟩ := Option.ne_none_iff_exists'.mp hsome
        obtain ⟨hperm, horder⟩ := sortLinks_spec hsizes hall
        refine ⟨results, htransform, fun page _ => ?_, fun pages hpages => ?_⟩
        · simp only [searchLinks, htransform, Option.bind_some, hall]
        · simp only [searchLinks, htransform, Option.bind_some, hall, Paging.windows_flatMap]
          rw [List.take_of_length_le (hperm.length_eq.trans_le hpages)]
          exact ⟨hperm, horder⟩

end Pages

section Samples

/-- Every title is as good as any other. -/
def indifferent : Calculators where
  extractTags := fun _ => []
  confidence := fun _ _ _ => 1
  quality := fun _ _ => 0
  freshness := fun _ => 1 / 2
  round := id

def dated : Link where
  note := some (.text "a".toList)
  datetime := some (.text "2026-04-16".toList)

def undated : Link where
  note := some (.text "b".toList)

/-- One link without a date is enough for a search by time to find nothing. -/
theorem undated_loses : ¬ LosesNothing indifferent (fun _ => []) "a".toList
    [("quark".toList, [dated, undated])] (some "time") 20 := by
  rintro ⟨-, -, hok, -⟩
  have hfirst := hok 1 le_rfl
  have herror : (searchLinks indifferent (fun _ => []) "a".toList
      [("quark".toList, [dated, undated])] (some "time") 1 20).error = true := by decide +kernel
  rw [herror] at hfirst
  cases hfirst

end Samples

end SmartMedia.Search
