import SmartMedia.Scrape.CategoryStrategy

/-!
# What the category preview promises

The preview looks for keywords in the name alone and for `s01e` and `season` in it; processing looks
for keywords in the title and the path too, and lets the parser look for a season or an episode.
-/
namespace SmartMedia.Media.MediaParser
open PythonRegex PythonRegex.Pattern PythonText

section Numbers

/-- A season or an episode was found. -/
def Info.Numbered (info : Info) : Prop := info.season ≠ none ∨ info.episode ≠ none

instance (info : Info) : Decidable info.Numbered :=
  inferInstanceAs (Decidable (info.season ≠ none ∨ info.episode ≠ none))

/-- The patterns of an episode, which come first. -/
def episodePatterns : List Pattern := patterns.take 7

variable {filename name : Path} {info : Info} {r : Pattern} {m : Match}

theorem Info.Numbered.update (h : info.Numbered) (m : Match) : (info.update m).Numbered := by
  cases h with
  | inl h =>
      left
      intro hnone
      exact h (Option.or_eq_none_iff.mp hnone).2
  | inr h =>
      right
      intro hnone
      exact h (Option.or_eq_none_iff.mp hnone).2

theorem Info.numbered_update_of_captures (h : captures "episode" r = true) (hm : m ∈ run r name) :
    (info.update m).Numbered := by
  obtain ⟨text, hne, hlookup⟩ := lookup_of_captures h hm
  right
  intro hnone
  have hget := (Option.or_eq_none_iff.mp hnone).1
  rw [Match.get, hlookup, truthy_of_ne_nil hne] at hget
  cases hget

theorem Info.numbered_update_iff (hseason : mentions "season" r = false)
    (hepisode : mentions "episode" r = false) (hm : m ∈ run r name) :
    (info.update m).Numbered ↔ info.Numbered := by
  have hnone : Match.get m "season" = none := by
    rw [Match.get, lookup_of_not_mentions hseason hm, truthy_none]
  have hnone' : Match.get m "episode" = none := by
    rw [Match.get, lookup_of_not_mentions hepisode hm, truthy_none]
  rw [Info.Numbered, Info.update, hnone, hnone']
  exact Iff.rfl

theorem matchStart_mem (h : r.matchStart name = some m) : m ∈ run r name :=
  List.mem_of_mem_head? h

/-- What was found stays. -/
theorem Info.Numbered.parseWith (h : info.Numbered) (rs : List Pattern) :
    (parseWith filename name rs info).Numbered := by
  induction rs generalizing info with
  | nil =>
      rw [MediaParser.parseWith]
      cases anyYear.search name with
      | none => exact h
      | some m => exact h
  | cons r rs ih =>
      rw [MediaParser.parseWith]
      cases hmatch : r.matchStart name with
      | none => exact ih h
      | some m =>
          simp only
          split_ifs
          · exact h.update m
          · exact ih (h.update m)

/-- The other patterns find none. -/
theorem numbered_parseWith_others {rs : List Pattern}
    (hrs : ∀ r ∈ rs, mentions "season" r = false ∧ mentions "episode" r = false) :
    (parseWith filename name rs info).Numbered ↔ info.Numbered := by
  induction rs generalizing info with
  | nil =>
      rw [parseWith]
      cases anyYear.search name with
      | none => exact Iff.rfl
      | some m => exact Iff.rfl
  | cons r rs ih =>
      have hr := hrs r List.mem_cons_self
      have hrest := fun r' hr' => hrs r' (List.mem_cons_of_mem r hr')
      rw [parseWith]
      cases hmatch : r.matchStart name with
      | none => exact ih hrest
      | some m =>
          have hupdate : (info.update m).Numbered ↔ info.Numbered :=
            Info.numbered_update_iff hr.1 hr.2 (matchStart_mem hmatch)
          simp only
          split_ifs
          · exact hupdate
          · exact (ih hrest).trans hupdate

theorem numbered_parseWith_iff {rs others : List Pattern}
    (hrs : ∀ r ∈ rs, captures "episode" r = true)
    (hothers : ∀ r ∈ others, mentions "season" r = false ∧ mentions "episode" r = false)
    (hinfo : ¬ info.Numbered) :
    (parseWith filename name (rs ++ others) info).Numbered ↔
      ∃ r ∈ rs, (r.matchStart name).isSome = true := by
  induction rs with
  | nil =>
      rw [List.nil_append, numbered_parseWith_others hothers]
      constructor
      · intro h
        exact absurd h hinfo
      · rintro ⟨r, hr, -⟩
        cases hr
  | cons r rs ih =>
      have hr := hrs r List.mem_cons_self
      have hrest := ih fun r' hr' => hrs r' (List.mem_cons_of_mem r hr')
      rw [List.cons_append, parseWith, List.exists_mem_cons_iff]
      cases hmatch : r.matchStart name with
      | none =>
          simp only [Option.isSome_none, Bool.false_eq_true, false_or]
          exact hrest
      | some m =>
          have hupdate : (info.update m).Numbered :=
            Info.numbered_update_of_captures hr (matchStart_mem hmatch)
          simp only [Option.isSome_some, true_or, iff_true]
          split_ifs
          · exact hupdate
          · exact hupdate.parseWith (rs ++ others)

/-- The parser finds a season or an episode just when a pattern of an episode matches. -/
theorem numbered_parse_iff (filename : Path) :
    (parse filename).Numbered ↔
      ∃ r ∈ episodePatterns, (r.matchStart (nameWithoutExt filename)).isSome = true := by
  have hcaptures : ∀ r ∈ episodePatterns, captures "episode" r = true := by decide
  have hothers : ∀ r ∈ patterns.drop 7,
      mentions "season" r = false ∧ mentions "episode" r = false := by decide
  have hinfo : ¬ (⟨filename, filename, none, none, none, none, false, "regex"⟩ : Info).Numbered := by
    rintro (h | h)
    · exact h rfl
    · exact h rfl
  have hsplit : patterns = episodePatterns ++ patterns.drop 7 := (List.take_append_drop 7 patterns).symm
  rw [parse, hsplit]
  exact numbered_parseWith_iff hcaptures hothers hinfo

end Numbers

end SmartMedia.Media.MediaParser

namespace SmartMedia.Scrape
open Media PythonText

section Items
variable (item : ScrapeItem) (info : MediaParser.Info) (mediaType : MediaType)

theorem hydrate_fileName :
    (hydrateItemFromParser item info mediaType).fileName = item.fileName := rfl

theorem hydrate_title :
    (hydrateItemFromParser item info mediaType).title =
      some ((truthy (some info.title)).getD (splitext item.fileName).1) := rfl

theorem hydrate_movie : (hydrateItemFromParser item info .movie).mediaType = .movie := rfl

theorem hydrate_tv : (hydrateItemFromParser item info .tv).mediaType = .tv := rfl

theorem hydrate_auto :
    (hydrateItemFromParser item info .auto).mediaType = if info.Numbered then .tv else .movie := rfl

end Items

section Keywords
variable {low : LowerCase} {keywords : List Path} {lowered : Path}

theorem hasKeyword_iff :
    hasKeyword low keywords lowered = true ↔
      ∃ keyword ∈ keywords, keyword ≠ [] ∧ low.lower keyword <:+: lowered := by
  rw [hasKeyword, List.any_eq_true]
  constructor
  · rintro ⟨keyword, hmem, h⟩
    rw [Bool.and_eq_true, decide_eq_true_eq, decide_eq_true_eq] at h
    exact ⟨keyword, hmem, h.1, h.2⟩
  · rintro ⟨keyword, hmem, hne, hin⟩
    refine ⟨keyword, hmem, ?_⟩
    rw [Bool.and_eq_true, decide_eq_true_eq, decide_eq_true_eq]
    exact ⟨hne, hin⟩

/-- Lowering the keywords beforehand changes nothing. -/
theorem hasKeyword_map_lower :
    hasKeyword low (keywords.map low.lower) lowered = hasKeyword low keywords lowered := by
  rw [hasKeyword, hasKeyword, List.any_map]
  congr 1
  funext keyword
  rw [Function.comp_apply, low.lower_lower]
  congr 1
  rw [decide_eq_decide, ne_eq, ne_eq, low.lower_eq_nil]

end Keywords

section Preview
variable (low : LowerCase)

/-- The keywords that processing looks for. -/
def CategoryStrategy.keywordsInEffect (row : CategoryStrategy) : List Path :=
  if row.animeKeywords = [] then defaultAnimeKeywords else row.animeKeywords

/-- The title of a processed file. -/
def parsedTitle (name : Path) : Path :=
  (truthy (some (MediaParser.parse name).title)).getD (splitext name).1

/-- A stored keyword is in the name. -/
def NameHasKeyword (row : CategoryStrategy) (name : Path) : Prop :=
  ∃ keyword ∈ row.animeKeywords, keyword ≠ [] ∧ low.lower keyword <:+: low.lower name

/-- A keyword in effect is in the title, the name and the path, one after the other. -/
def TextHasKeyword (row : CategoryStrategy) (dir name : Path) : Prop :=
  ∃ keyword ∈ row.keywordsInEffect, keyword ≠ [] ∧
    low.lower keyword <:+: low.lower (parsedTitle name ++ ' ' :: name ++ ' ' :: (dir ++ '/' :: name))

/-- The preview would call a file of this name an episode. -/
def LooksLikeEpisode (name : Path) : Prop :=
  "s01e".toList <:+: low.lower name ∨ "season".toList <:+: low.lower name

/-- A pattern of an episode matches the name. -/
def ParsedAsEpisode (name : Path) : Prop :=
  ∃ r ∈ MediaParser.episodePatterns, (r.matchStart (MediaParser.nameWithoutExt name)).isSome = true

instance (row : CategoryStrategy) (name : Path) : Decidable (NameHasKeyword low row name) :=
  inferInstanceAs (Decidable (∃ keyword ∈ row.animeKeywords, _))

instance (row : CategoryStrategy) (dir name : Path) : Decidable (TextHasKeyword low row dir name) :=
  inferInstanceAs (Decidable (∃ keyword ∈ row.keywordsInEffect, _))

instance (name : Path) : Decidable (LooksLikeEpisode low name) :=
  inferInstanceAs (Decidable (_ ∨ _))

instance (name : Path) : Decidable (ParsedAsEpisode name) :=
  inferInstanceAs (Decidable (∃ r ∈ MediaParser.episodePatterns, _))

variable {low} {row : CategoryStrategy} {dir name : Path}

theorem basename_join (hname : '/' ∉ name) : basename (dir ++ '/' :: name) = name := by
  have hreverse : (dir ++ '/' :: name).reverse = name.reverse ++ '/' :: dir.reverse := by
    rw [List.reverse_append, List.reverse_cons, List.append_assoc, List.singleton_append]
  have htake : (name.reverse ++ '/' :: dir.reverse).takeWhile (· ≠ '/') = name.reverse := by
    rw [List.takeWhile_append_of_pos]
    · simp
    · intro c hc
      rw [decide_eq_true_eq]
      rintro rfl
      exact hname (List.mem_reverse.mp hc)
  rw [basename, hreverse, htake, List.reverse_reverse]

/-- What is in the name is in the text around it. -/
theorem TextHasKeyword.of_name (h : NameHasKeyword low row name) (dir : Path) :
    TextHasKeyword low row dir name := by
  obtain ⟨keyword, hmem, hne, hin⟩ := h
  have hrow : row.animeKeywords ≠ [] := List.ne_nil_of_mem hmem
  have hlower : low.lower (parsedTitle name ++ ' ' :: name ++ ' ' :: (dir ++ '/' :: name)) =
      low.lower (parsedTitle name) ++ ' ' :: low.lower name ++
        ' ' :: low.lower (dir ++ '/' :: name) := by
    rw [low.lower_apart _ _ ' ' (.inl rfl), low.lower_apart _ _ ' ' (.inl rfl)]
  refine ⟨keyword, ?_, hne, ?_⟩
  · rw [CategoryStrategy.keywordsInEffect, if_neg hrow]
    exact hmem
  · have hname : low.lower name <:+:
        low.lower (parsedTitle name) ++ ' ' :: low.lower name ++
          ' ' :: low.lower (dir ++ '/' :: name) :=
      ⟨low.lower (parsedTitle name) ++ [' '], ' ' :: low.lower (dir ++ '/' :: name), by simp⟩
    rw [hlower]
    exact hin.trans hname

theorem preview_of_keyword (h : NameHasKeyword low row name) (mediaType : MediaType) :
    (previewCategoryStrategy low (some row) name mediaType).1 = .anime :=
  if_pos (hasKeyword_iff.mpr h)

theorem preview_of_no_keyword (h : ¬ NameHasKeyword low row name) (mediaType : MediaType) :
    (previewCategoryStrategy low (some row) name mediaType).1 =
      match mediaType with
      | .movie => .movie
      | .tv => .tv
      | .auto =>
          if "s01e".toList <:+: low.lower name ∨ "season".toList <:+: low.lower name then .tv
          else .movie :=
  if_neg fun hhas => h (hasKeyword_iff.mp hhas)

/-- The title, the type and the keywords that decide the category of a processed file. -/
theorem processed_eq (hname : '/' ∉ name) (mediaType : MediaType) :
    processedCategory low (some row) (dir ++ '/' :: name) mediaType =
      if hasKeyword low row.keywordsInEffect
          (low.lower (parsedTitle name ++ ' ' :: name ++ ' ' :: (dir ++ '/' :: name))) then .anime
      else if (hydrateItemFromParser (ScrapeItem.ofFile (dir ++ '/' :: name))
          (MediaParser.parse name) mediaType).mediaType = .movie then .movie
      else .tv := by
  have hbase : (ScrapeItem.ofFile (dir ++ '/' :: name)).fileName = name := basename_join hname
  have hkeywords : (getCategoryStrategy low (some row)).animeKeywords =
      row.keywordsInEffect.map low.lower := rfl
  rw [processedCategory, resolveCategoryKey, hydrate_title, hydrate_fileName, hbase, hkeywords,
    hasKeyword_map_lower, Option.getD_some, parsedTitle]

/-- The preview tells what category a file of that name gets just when the title and the rest of
the path add no keyword, and, if the type is to be found out, the name looks like an episode to
both or to neither. -/
theorem preview_tells_iff (low : LowerCase) (row : CategoryStrategy) (dir : Path) {name : Path}
    (hname : '/' ∉ name) (mediaType : MediaType) :
    (previewCategoryStrategy low (some row) name mediaType).1 =
        processedCategory low (some row) (dir ++ '/' :: name) mediaType ↔
      (TextHasKeyword low row dir name → NameHasKeyword low row name) ∧
        (mediaType = .auto → ¬ TextHasKeyword low row dir name →
          (LooksLikeEpisode low name ↔ ParsedAsEpisode name)) := by
  rw [processed_eq hname]
  by_cases htext : TextHasKeyword low row dir name
  · rw [if_pos (hasKeyword_iff.mpr htext)]
    by_cases hin : NameHasKeyword low row name
    · rw [preview_of_keyword hin]
      simp only [htext, hin, not_true_eq_false, false_implies, implies_true, and_self]
    · have hne : (previewCategoryStrategy low (some row) name mediaType).1 ≠ .anime := by
        rw [preview_of_no_keyword hin]
        cases mediaType with
        | movie => simp
        | tv => simp
        | auto =>
            simp only
            split_ifs
            · decide
            · decide
      simp only [htext, hin, hne, true_implies, false_and]
  · have hin : ¬ NameHasKeyword low row name := fun h => htext (.of_name h dir)
    have hno : ¬ hasKeyword low row.keywordsInEffect
        (low.lower (parsedTitle name ++ ' ' :: name ++ ' ' :: (dir ++ '/' :: name))) = true :=
      fun h => htext (hasKeyword_iff.mp h)
    rw [if_neg hno, preview_of_no_keyword hin]
    simp only [htext, false_implies, not_false_eq_true, true_implies, true_and]
    cases mediaType with
    | movie => simp [hydrate_movie]
    | tv => simp [hydrate_tv]
    | auto =>
        have hparsed : (MediaParser.parse name).Numbered ↔ ParsedAsEpisode name :=
          MediaParser.numbered_parse_iff name
        rw [eq_self, true_imp_iff, hydrate_auto, ← hparsed, LooksLikeEpisode]
        have htv : MediaType.tv ≠ .movie := by decide
        by_cases hlooks : "s01e".toList <:+: low.lower name ∨ "season".toList <:+: low.lower name
        · rw [if_pos hlooks]
          by_cases hnumbered : (MediaParser.parse name).Numbered
          · rw [if_pos hnumbered, if_neg htv]
            exact iff_of_true rfl (iff_of_true hlooks hnumbered)
          · rw [if_neg hnumbered, if_pos rfl]
            exact iff_of_false (by decide) fun h => hnumbered (h.mp hlooks)
        · rw [if_neg hlooks]
          by_cases hnumbered : (MediaParser.parse name).Numbered
          · rw [if_pos hnumbered, if_neg htv]
            exact iff_of_false (by decide) fun h => hlooks (h.mpr hnumbered)
          · rw [if_neg hnumbered, if_pos rfl]
            exact iff_of_true rfl (iff_of_false hlooks hnumbered)

/-- An episode of a first season. -/
theorem firstSeason_told :
    (previewCategoryStrategy .ascii (some {}) "Show.S01E02.mkv".toList .auto).1 =
      processedCategory .ascii (some {}) ("/downloads".toList ++ '/' :: "Show.S01E02.mkv".toList) .auto :=
  (preview_tells_iff .ascii {} "/downloads".toList (by decide) .auto).mpr (by decide +kernel)

/-- An episode of a second season is a film in the preview. -/
theorem secondSeason_untold :
    (previewCategoryStrategy .ascii (some {}) "Show.S02E01.mkv".toList .auto).1 = .movie ∧
      processedCategory .ascii (some {}) "/downloads/Show.S02E01.mkv".toList .auto = .tv := by
  decide +kernel

end Preview

end SmartMedia.Scrape
