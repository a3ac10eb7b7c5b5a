import SmartMedia.Search.SearchService

/-!
# What the size filter keeps

The best twenty results of one drive are filtered by the sizes that are fetched. Results are told
apart by their place; the outcome of each lookup is free.
-/
namespace SmartMedia.Search
open PythonRegex

section Filter
variable (outcome : ℕ → Option ℕ) (results : List SearchResult) (minSizeBytes : ℕ)

/-- The results with a link of the drive, and their places. -/
def quarkResults : List (SearchResult × ℕ) :=
  results.zipIdx.filter fun result => result.1.cloudLinks.any isQuark

/-- The twenty with the best scores. -/
def topQuarkResults : List (SearchResult × ℕ) :=
  ((quarkResults results).insertionSort fun x y => y.1.score ≤ x.1.score).take 20

/-- The links that are looked up. -/
def quarkItems : List CloudLink :=
  (topQuarkResults results).flatMap fun result => result.1.cloudLinks.filter fun link =>
    isQuark link && (extractShareKey link.url).isSome

/-- `batch_get_sizes`, with the outcome of each lookup by its place. -/
def sizesOf (items : List CloudLink) : List (Text × ℕ) :=
  items.zipIdx.foldl (fun sizes item =>
    match extractShareKey item.1.url with
    | none => sizes
    | some shareKey =>
        match (outcome item.2).filter (minSizeBytes ≤ ·) with
        | none => sizes
        | some size => (shareKey, size) :: sizes) []

/-- `_apply_size_filter` for a positive minimum, with the places of the results. -/
def sizeFiltered : List (SearchResult × ℕ) :=
  results.zipIdx.filterMap fun result =>
    (keep (sizesOf outcome minSizeBytes (quarkItems results)) minSizeBytes (topQuarkResults results)
      result.1 result.2).map fun kept => (kept, result.2)

/-- The sizes that were fetched for a share. -/
def fetchedSizes (shareKey : Text) : List ℕ :=
  (quarkItems results).zipIdx.filterMap fun item =>
    if extractShareKey item.1.url = some shareKey then outcome item.2 else none

/-- The shares of a result. -/
def shareKeys (result : SearchResult) : List Text :=
  (result.cloudLinks.filter isQuark).filterMap fun link => extractShareKey link.url

/-- A fetched size is large enough. -/
def HasLarge (result : SearchResult) : Prop :=
  ∃ shareKey ∈ shareKeys result, ∃ size ∈ fetchedSizes outcome results shareKey, minSizeBytes ≤ size

/-- There are shares, and a size was fetched for each. -/
def AllFetched (result : SearchResult) : Prop :=
  shareKeys result ≠ [] ∧
    ∀ shareKey ∈ shareKeys result, fetchedSizes outcome results shareKey ≠ []

/-- A size was fetched for each share, and all of them are too small. -/
def TooSmall (result : SearchResult) : Prop :=
  AllFetched outcome results result ∧
    ∀ shareKey ∈ shareKeys result, ∀ size ∈ fetchedSizes outcome results shareKey,
      size < minSizeBytes

/-- A result without the sizes that the filter writes into it. -/
def unsized (result : SearchResult) : SearchResult :=
  { result with
    cloudLinks := result.cloudLinks.map fun link => { link with size := none }
    fileSize := none }

/-- What the filter should return. -/
structure FiltersBySize (filtered : List (SearchResult × ℕ)) : Prop where
  order : (filtered.map fun result => (unsized result.1, result.2)).Sublist
    (results.zipIdx.map fun result => (unsized result.1, result.2))
  others : ∀ result ∈ results.zipIdx, result ∉ quarkResults results →
    result.2 ∈ filtered.map Prod.snd
  outside : ∀ result ∈ quarkResults results, result ∉ topQuarkResults results →
    result.2 ∈ filtered.map Prod.snd
  large : ∀ result ∈ topQuarkResults results, HasLarge outcome results minSizeBytes result.1 →
    result.2 ∈ filtered.map Prod.snd
  small : ∀ result ∈ topQuarkResults results, TooSmall outcome results minSizeBytes result.1 →
    result.2 ∉ filtered.map Prod.snd

end Filter

section Sizes
variable {outcome : ℕ → Option ℕ} {results : List SearchResult} {minSizeBytes : ℕ}
  {items : List CloudLink} {shareKey : Text} {size : ℕ}

/-- Each entry is a size that was fetched and is large enough. -/
theorem mem_sizesOf : (shareKey, size) ∈ sizesOf outcome minSizeBytes items ↔
    ∃ item ∈ items.zipIdx, extractShareKey item.1.url = some shareKey ∧ outcome item.2 = some size ∧
      minSizeBytes ≤ size := by
  rw [sizesOf]
  generalize items.zipIdx = places
  induction places using List.reverseRecOn with
  | nil => simp
  | append_singleton places item ih =>
      rw [List.foldl_append, List.foldl_cons, List.foldl_nil]
      simp only [List.mem_append, List.mem_singleton, or_and_right, exists_or, exists_eq_left]
      rw [← ih]
      cases hkey : extractShareKey item.1.url with
      | none => simp
      | some key =>
          dsimp only
          cases hsize : (outcome item.2).filter (minSizeBytes ≤ ·) with
          | none =>
              dsimp only
              rw [iff_self_or]
              rintro ⟨-, houtcome, hlarge⟩
              rw [houtcome, Option.filter_some, if_pos (decide_eq_true hlarge)] at hsize
              cases hsize
          | some found =>
              rw [Option.filter_eq_some_iff, decide_eq_true_iff] at hsize
              dsimp only
              rw [List.mem_cons, Prod.mk.injEq, hsize.1, Option.some.injEq, Option.some.injEq, or_comm]
              refine or_congr_right ⟨?_, ?_⟩
              · rintro ⟨rfl, rfl⟩
                exact ⟨rfl, rfl, hsize.2⟩
              · rintro ⟨rfl, rfl, -⟩
                exact ⟨rfl, rfl⟩

theorem mem_fetchedSizes : size ∈ fetchedSizes outcome results shareKey ↔
    ∃ item ∈ (quarkItems results).zipIdx, extractShareKey item.1.url = some shareKey ∧
      outcome item.2 = some size := by
  rw [fetchedSizes, List.mem_filterMap]
  refine exists_congr fun item => and_congr_right fun _ => ?_
  split_ifs with hkey <;> simp [hkey]

theorem mem_shareKeys {result : SearchResult} : shareKey ∈ shareKeys result ↔
    ∃ link ∈ result.cloudLinks, isQuark link = true ∧ extractShareKey link.url = some shareKey := by
  rw [shareKeys, List.mem_filterMap]
  simp only [List.mem_filter, and_assoc]

/-- The size map has the sizes that are large enough. -/
theorem mem_sizeMap : (shareKey, size) ∈ sizesOf outcome minSizeBytes (quarkItems results) ↔
    size ∈ fetchedSizes outcome results shareKey ∧ minSizeBytes ≤ size := by
  rw [mem_sizesOf, mem_fetchedSizes]
  constructor
  · rintro ⟨item, hitem, hkey, houtcome, hlarge⟩
    exact ⟨⟨item, hitem, hkey, houtcome⟩, hlarge⟩
  · rintro ⟨⟨item, hitem, hkey, houtcome⟩, hlarge⟩
    exact ⟨item, hitem, hkey, houtcome, hlarge⟩

theorem isSome_validSize (link : CloudLink) :
    (validSize (sizesOf outcome minSizeBytes (quarkItems results)) minSizeBytes link).isSome = true ↔
      isQuark link = true ∧ ∃ shareKey, extractShareKey link.url = some shareKey ∧
        ∃ size ∈ fetchedSizes outcome results shareKey, minSizeBytes ≤ size := by
  rw [validSize]
  split_ifs with hquark
  · rw [Option.isSome_iff_exists]
    simp only [Option.filter_eq_some_iff, Option.bind_eq_some_iff, decide_eq_true_iff]
    constructor
    · rintro ⟨size, ⟨shareKey, hkey, hlookup⟩, hlarge⟩
      obtain ⟨before, after, hmap, -⟩ := List.lookup_eq_some_iff.mp hlookup
      have hmem : (shareKey, size) ∈ sizesOf outcome minSizeBytes (quarkItems results) := by
        rw [hmap]
        exact List.mem_append_right _ List.mem_cons_self
      exact ⟨hquark, shareKey, hkey, size, (mem_sizeMap.mp hmem).1, hlarge⟩
    · rintro ⟨-, shareKey, hkey, size, hfetched, hlarge⟩
      have hmem := mem_sizeMap.mpr ⟨hfetched, hlarge⟩
      have hsome : ((sizesOf outcome minSizeBytes (quarkItems results)).lookup shareKey).isSome :=
        List.lookup_isSome_iff.mpr ⟨_, hmem, beq_self_eq_true shareKey⟩
      obtain ⟨kept, hkept⟩ := Option.isSome_iff_exists.mp hsome
      obtain ⟨before, after, hmap, -⟩ := List.lookup_eq_some_iff.mp hkept
      have hmem' : (shareKey, kept) ∈ sizesOf outcome minSizeBytes (quarkItems results) := by
        rw [hmap]
        exact List.mem_append_right _ List.mem_cons_self
      exact ⟨kept, ⟨shareKey, hkey, hkept⟩, (mem_sizeMap.mp hmem').2⟩
  · exact iff_of_false Bool.false_ne_true fun h => hquark h.1

theorem isSome_resultSize (result : SearchResult) :
    (resultSize (sizesOf outcome minSizeBytes (quarkItems results)) minSizeBytes result).isSome =
        true ↔ HasLarge outcome results minSizeBytes result := by
  rw [resultSize, List.getLast?_isSome, HasLarge]
  constructor
  · intro hne
    obtain ⟨size, hsize⟩ := List.exists_mem_of_ne_nil _ hne
    obtain ⟨link, hlink, hvalid⟩ := List.mem_filterMap.mp hsize
    obtain ⟨hquark, shareKey, hkey, hlarge⟩ :=
      (isSome_validSize link).mp (Option.isSome_of_eq_some hvalid)
    exact ⟨shareKey, mem_shareKeys.mpr ⟨link, hlink, hquark, hkey⟩, hlarge⟩
  · rintro ⟨shareKey, hmem, hlarge⟩
    obtain ⟨link, hlink, hquark, hkey⟩ := mem_shareKeys.mp hmem
    obtain ⟨size, hvalid⟩ := Option.isSome_iff_exists.mp
      ((isSome_validSize link).mpr ⟨hquark, shareKey, hkey, hlarge⟩)
    exact List.ne_nil_of_mem (List.mem_filterMap.mpr ⟨link, hlink, hvalid⟩)

/-- The size map is empty if nothing that was fetched is large enough. -/
theorem sizeMap_eq_nil : sizesOf outcome minSizeBytes (quarkItems results) = [] ↔
    ∀ shareKey, ∀ size ∈ fetchedSizes outcome results shareKey, size < minSizeBytes := by
  rw [List.eq_nil_iff_forall_not_mem]
  constructor
  · intro h shareKey size hsize
    by_contra hlarge
    exact h (shareKey, size) (mem_sizeMap.mpr ⟨hsize, not_lt.mp hlarge⟩)
  · rintro h ⟨shareKey, size⟩ hmem
    obtain ⟨hsize, hlarge⟩ := mem_sizeMap.mp hmem
    exact absurd (h shareKey size hsize) (not_lt.mpr hlarge)

end Sizes

section Lookups
variable {getShareSize : Text → Text → Option ℕ} {results : List SearchResult} {minSizeBytes : ℕ}

/-- The outcome of a lookup that depends on the share alone. -/
def outcomeOf (getShareSize : Text → Text → Option ℕ) (items : List CloudLink) (place : ℕ) : Option ℕ :=
  items[place]?.bind fun item =>
    (extractShareKey item.url).bind fun shareKey => getShareSize shareKey item.password

theorem sizesOf_outcomeOf (items : List CloudLink) :
    sizesOf (outcomeOf getShareSize items) minSizeBytes items =
      batchGetSizes getShareSize items minSizeBytes := by
  rw [sizesOf, batchGetSizes]
  conv_rhs => rw [← List.zipIdx_map_fst 0 items, List.foldl_map]
  apply List.foldl_ext
  rintro sizes ⟨item, place⟩ hitem
  rw [outcomeOf, List.mem_zipIdx_iff_getElem?.mp hitem, Option.bind_some]
  dsimp only
  cases hkey : extractShareKey item.url with
  | none => rfl
  | some shareKey => rfl

/-- The filter of a search is an instance. -/
theorem applySizeFilter_eq (h : minSizeBytes ≠ 0) :
    applySizeFilter getShareSize results minSizeBytes =
      (sizeFiltered (outcomeOf getShareSize (quarkItems results)) results minSizeBytes).map
        Prod.fst := by
  rw [applySizeFilter, if_neg h, sizeFiltered, sizesOf_outcomeOf, List.map_filterMap]
  apply List.filterMap_congr
  intro result _
  rw [Option.map_map]
  exact Option.map_id'.symm

end Lookups

section Kept
variable {outcome : ℕ → Option ℕ} {results : List SearchResult} {minSizeBytes : ℕ}
  {result : SearchResult × ℕ}

/-- Some fetched size is large enough. -/
def SomeLarge (outcome : ℕ → Option ℕ) (results : List SearchResult) (minSizeBytes : ℕ) : Prop :=
  ∃ shareKey, ∃ size ∈ fetchedSizes outcome results shareKey, minSizeBytes ≤ size

/-- The place is one of the first twenty, or the result equals one of them when the loop gets there. -/
def CountsAsTop (outcome : ℕ → Option ℕ) (results : List SearchResult) (minSizeBytes : ℕ)
    (result : SearchResult × ℕ) : Prop :=
  ∃ top ∈ topQuarkResults results, top.2 = result.2 ∨
    (if top.2 < result.2 then
      withFileSize (sizesOf outcome minSizeBytes (quarkItems results)) minSizeBytes top.1
    else top.1) = result.1

theorem mem_quarkResults : result ∈ quarkResults results ↔
    result ∈ results.zipIdx ∧ result.1.cloudLinks.any isQuark = true := List.mem_filter

theorem mem_quark_of_top (h : result ∈ topQuarkResults results) : result ∈ quarkResults results :=
  (List.mem_insertionSort _).mp (List.mem_of_mem_take h)

/-- Results with the same place are the same. -/
theorem eq_of_place {result' : SearchResult × ℕ} (h : result ∈ results.zipIdx)
    (h' : result' ∈ results.zipIdx) (hplace : result.2 = result'.2) : result = result' := by
  rw [List.mem_zipIdx_iff_getElem?] at h h'
  rw [hplace, h'] at h
  exact Prod.ext (Option.some.inj h).symm hplace

theorem somewhere_iff : sizesOf outcome minSizeBytes (quarkItems results) = [] ↔
    ¬ SomeLarge outcome results minSizeBytes := by
  rw [sizeMap_eq_nil, SomeLarge]
  simp only [not_exists, not_and, not_le]

/-- Whether the result at a place is kept. -/
theorem isKept_iff : (keep (sizesOf outcome minSizeBytes (quarkItems results)) minSizeBytes
      (topQuarkResults results) result.1 result.2).isSome = true ↔
    result.1.cloudLinks.any isQuark = false ∨ ¬ CountsAsTop outcome results minSizeBytes result ∨
      HasLarge outcome results minSizeBytes result.1 ∨
        ¬ SomeLarge outcome results minSizeBytes := by
  rw [keep, ← isSome_resultSize, ← somewhere_iff]
  have htop : ((topQuarkResults results).any fun top => top.2 = result.2 ∨
      (if top.2 < result.2 then
        withFileSize (sizesOf outcome minSizeBytes (quarkItems results)) minSizeBytes top.1
      else top.1) = result.1) = true ↔ CountsAsTop outcome results minSizeBytes result := by
    rw [List.any_eq_true]
    simp only [decide_eq_true_iff]
    rfl
  rw [← htop]
  split_ifs with hquark hcounts hlarge hempty
  · exact iff_of_true rfl (.inl hquark)
  · exact iff_of_true rfl (.inr (.inr (.inl hlarge)))
  · exact iff_of_true rfl (.inr (.inr (.inr hempty)))
  · refine iff_of_false Bool.false_ne_true ?_
    rintro (h | h | h | h)
    · exact hquark h
    · exact h hcounts
    · exact hlarge h
    · exact hempty h
  · exact iff_of_true rfl (.inr (.inl hcounts))

theorem mem_places (h : result ∈ results.zipIdx) :
    result.2 ∈ (sizeFiltered outcome results minSizeBytes).map Prod.snd ↔
      (keep (sizesOf outcome minSizeBytes (quarkItems results)) minSizeBytes
        (topQuarkResults results) result.1 result.2).isSome = true := by
  rw [List.mem_map]
  constructor
  · rintro ⟨kept, hkept, hplace⟩
    obtain ⟨result', hresult', hsome⟩ := List.mem_filterMap.mp hkept
    rw [Option.map_eq_some_iff] at hsome
    obtain ⟨shown, hshown, rfl⟩ := hsome
    rw [← eq_of_place hresult' h hplace, hshown]
    rfl
  · intro hsome
    obtain ⟨shown, hshown⟩ := Option.isSome_iff_exists.mp hsome
    exact ⟨(shown, result.2), List.mem_filterMap.mpr ⟨result, h, by rw [hshown]; rfl⟩, rfl⟩

/-- The loop changes no link and no file size for the worse: without a size that is large enough it
changes nothing. -/
theorem withFileSize_eq_self {r : SearchResult} (h : ¬ HasLarge outcome results minSizeBytes r) :
    withFileSize (sizesOf outcome minSizeBytes (quarkItems results)) minSizeBytes r = r := by
  have hsize := Option.not_isSome_iff_eq_none.mp (mt (isSome_resultSize r).mp h)
  have hlinks : ∀ link ∈ r.cloudLinks,
      validSize (sizesOf outcome minSizeBytes (quarkItems results)) minSizeBytes link = none := by
    rw [resultSize, List.getLast?_eq_none_iff, List.filterMap_eq_nil_iff] at hsize
    exact hsize
  have hmap : (r.cloudLinks.map fun link => { link with
      size := (validSize (sizesOf outcome minSizeBytes (quarkItems results)) minSizeBytes link).or
        link.size }) = r.cloudLinks := by
    rw [List.map_congr_left (g := id), List.map_id]
    intro link hlink
    rw [hlinks link hlink]
    rfl
  rw [withFileSize, withLinkSizes, hmap, hsize]
  rfl

theorem shareKeys_withFileSize {sizeMap : List (Text × ℕ)} (r : SearchResult) :
    shareKeys (withFileSize sizeMap minSizeBytes r) = shareKeys r := by
  rw [shareKeys, shareKeys, withFileSize, withLinkSizes]
  dsimp only
  rw [List.filter_map, List.filterMap_map]
  rfl

/-- A result whose sizes are not large enough counts as one of the first twenty if it equals one. -/
theorem countsAsTop_iff (h : ¬ HasLarge outcome results minSizeBytes result.1)
    (hresult : result ∈ results.zipIdx) :
    CountsAsTop outcome results minSizeBytes result ↔
      ∃ top ∈ topQuarkResults results, top.1 = result.1 := by
  constructor
  · rintro ⟨top, htop, hplace | hsame⟩
    · exact ⟨top, htop, congrArg Prod.fst
        (eq_of_place (mem_quarkResults.mp (mem_quark_of_top htop)).1 hresult hplace)⟩
    · refine ⟨top, htop, ?_⟩
      split_ifs at hsame
      · have hkeys : shareKeys top.1 = shareKeys result.1 := by
          rw [← hsame, shareKeys_withFileSize]
        have htoplarge : ¬ HasLarge outcome results minSizeBytes top.1 := by
          rw [HasLarge, hkeys]
          exact h
        rwa [withFileSize_eq_self htoplarge] at hsame
      · exact hsame
  · rintro ⟨top, htop, hsame⟩
    refine ⟨top, htop, .inr ?_⟩
    split_ifs
    · rw [withFileSize_eq_self (hsame ▸ h), hsame]
    · exact hsame

theorem unsized_withLinkSizes {sizeMap : List (Text × ℕ)} (r : SearchResult) :
    unsized (withLinkSizes sizeMap minSizeBytes r) = unsized r := by
  rw [unsized, unsized, withLinkSizes]
  dsimp only
  rw [List.map_map]
  rfl

/-- What is kept is the result, up to the sizes. -/
theorem unsized_of_keep {sizeMap : List (Text × ℕ)} {tops : List (SearchResult × ℕ)}
    {shown : SearchResult} (h : keep sizeMap minSizeBytes tops result.1 result.2 = some shown) :
    unsized shown = unsized result.1 := by
  rw [keep] at h
  split_ifs at h
  · exact Option.some.inj h ▸ rfl
  · exact Option.some.inj h ▸ unsized_withLinkSizes result.1
  · exact Option.some.inj h ▸ rfl
  · exact Option.some.inj h ▸ unsized_withLinkSizes result.1

theorem sizeFiltered_order : ((sizeFiltered outcome results minSizeBytes).map fun result =>
      (unsized result.1, result.2)).Sublist
    (results.zipIdx.map fun result => (unsized result.1, result.2)) := by
  rw [sizeFiltered, List.map_filterMap]
  generalize results.zipIdx = places
  induction places with
  | nil => exact List.Sublist.slnil
  | cons result places ih =>
      cases hkeep : keep (sizesOf outcome minSizeBytes (quarkItems results)) minSizeBytes
          (topQuarkResults results) result.1 result.2 with
      | none =>
          rw [List.filterMap_cons_none (by rw [hkeep]; rfl), List.map_cons]
          exact ih.cons _
      | some shown =>
          rw [List.filterMap_cons_some (by rw [hkeep]; rfl), List.map_cons]
          dsimp only
          rw [unsized_of_keep hkeep]
          exact ih.cons_cons _

/-- The filter filters by size in two cases: a fetched size is large enough, and no result outside
the first twenty that has no such size equals one of them; or none is, and none of the first twenty
has all its sizes fetched. -/
theorem filtersBySize_iff (outcome : ℕ → Option ℕ) (results : List SearchResult) (minSizeBytes : ℕ) :
    FiltersBySize outcome results minSizeBytes (sizeFiltered outcome results minSizeBytes) ↔
      (SomeLarge outcome results minSizeBytes →
        ∀ result ∈ quarkResults results, result ∉ topQuarkResults results →
          ¬ HasLarge outcome results minSizeBytes result.1 →
            ∀ top ∈ topQuarkResults results, top.1 ≠ result.1) ∧
      (¬ SomeLarge outcome results minSizeBytes →
        ∀ top ∈ topQuarkResults results, ¬ AllFetched outcome results top.1) := by
  constructor
  · intro h
    constructor
    · intro hsome result hquark houtside hsmall top htop hsame
      obtain ⟨hplace, hlinks⟩ := mem_quarkResults.mp hquark
      have hkept := (mem_places hplace).mp (h.outside result hquark houtside)
      rcases isKept_iff.mp hkept with hother | hcounts | hlarge | hnone
      · rw [hlinks] at hother
        cases hother
      · exact hcounts ((countsAsTop_iff hsmall hplace).mpr ⟨top, htop, hsame⟩)
      · exact hsmall hlarge
      · exact hnone hsome
    · intro hnone top htop hfetched
      have hplace := (mem_quarkResults.mp (mem_quark_of_top htop)).1
      have hsmall : TooSmall outcome results minSizeBytes top.1 := by
        refine ⟨hfetched, ?_⟩
        intro shareKey _ size hsize
        by_contra hlarge
        exact hnone ⟨shareKey, size, hsize, not_lt.mp hlarge⟩
      refine h.small top htop hsmall ((mem_places hplace).mpr ?_)
      exact isKept_iff.mpr (.inr (.inr (.inr hnone)))
  · rintro ⟨hequal, hnone⟩
    constructor
    · exact sizeFiltered_order
    · intro result hplace hother
      refine (mem_places hplace).mpr (isKept_iff.mpr (.inl ?_))
      exact Bool.eq_false_iff.mpr fun hlinks => hother (mem_quarkResults.mpr ⟨hplace, hlinks⟩)
    · intro result hquark houtside
      have hplace := (mem_quarkResults.mp hquark).1
      refine (mem_places hplace).mpr (isKept_iff.mpr (.inr ?_))
      by_cases hlarge : HasLarge outcome results minSizeBytes result.1
      · exact .inr (.inl hlarge)
      · by_cases hsome : SomeLarge outcome results minSizeBytes
        · left
          rw [countsAsTop_iff hlarge hplace]
          rintro ⟨top, htop, hsame⟩
          exact hequal hsome result hquark houtside hlarge top htop hsame
        · exact .inr (.inr hsome)
    · intro result htop hlarge
      have hplace := (mem_quarkResults.mp (mem_quark_of_top htop)).1
      exact (mem_places hplace).mpr (isKept_iff.mpr (.inr (.inr (.inl hlarge))))
    · intro top htop hsmall hmem
      obtain ⟨hplace, hlinks⟩ := mem_quarkResults.mp (mem_quark_of_top htop)
      rcases isKept_iff.mp ((mem_places hplace).mp hmem) with hother | hcounts | hlarge | hno
      · rw [hlinks] at hother
        cases hother
      · exact hcounts ⟨top, htop, .inl rfl⟩
      · obtain ⟨shareKey, hkey, size, hsize, hle⟩ := hlarge
        exact absurd (hsmall.2 shareKey hkey size hsize) (not_lt.mpr hle)
      · exact hnone hno top htop hsmall.1

/-- A result of the drive with one share, too small. -/
def smallResult : SearchResult where
  id := []
  title := []
  source := []
  pubDate := none
  cloudType := "quark".toList
  cloudLinks := [⟨"quark".toList, "https://pan.quark.cn/s/a".toList, [], [], none⟩]
  score := 1
  confidence := 1
  quality := 1
  popularity := 1
  freshness := 1
  tags := []

/-- When every size that is fetched is too small, nothing is filtered. -/
theorem small_kept :
    sizeFiltered (fun _ => some 1) [smallResult] 2 = [(smallResult, 0)] ∧
      ¬ FiltersBySize (fun _ => some 1) [smallResult] 2
        (sizeFiltered (fun _ => some 1) [smallResult] 2) := by
  have hkept : sizeFiltered (fun _ => some 1) [smallResult] 2 = [(smallResult, 0)] := by
    decide +kernel
  refine ⟨hkept, fun h => ?_⟩
  have htop : (smallResult, 0) ∈ topQuarkResults [smallResult] := by decide +kernel
  have hkeys : shareKeys smallResult = ["a".toList] := by decide +kernel
  have hsizes : fetchedSizes (fun _ => some 1) [smallResult] "a".toList = [1] := by decide +kernel
  have hsmall : TooSmall (fun _ => some 1) [smallResult] 2 smallResult := by
    rw [TooSmall, AllFetched, hkeys, List.forall_mem_singleton, List.forall_mem_singleton, hsizes]
    exact ⟨⟨List.cons_ne_nil _ _, List.cons_ne_nil _ _⟩,
      List.forall_mem_singleton.mpr Nat.one_lt_two⟩
  have hgone := h.small (smallResult, 0) htop hsmall
  rw [hkept] at hgone
  exact hgone List.mem_cons_self

end Kept

end SmartMedia.Search
