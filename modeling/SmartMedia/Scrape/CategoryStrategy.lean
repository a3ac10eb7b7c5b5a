import SmartMedia.Media.MediaParser

/-!
# Secondary categories

How `app/api/scrape.py` stores, loads and previews a category strategy, and how
`app/services/media/scrape.py` loads it and picks the category of a file. A name is lowered as a whole.
-/
namespace SmartMedia.Scrape
open Media PythonText

/-- `str.lower`, which looks at the characters around some others, but not past a blank or a slash. -/
structure LowerCase where
  lower : Path → Path
  lower_apart : ∀ (a b : Path) (c : Char), c = ' ' ∨ c = '/' →
    lower (a ++ c :: b) = lower a ++ c :: lower b
  lower_lower : ∀ a, lower (lower a) = lower a
  lower_eq_nil : ∀ a, lower a = [] ↔ a = []

/-- The one of the texts in ASCII. -/
def LowerCase.ascii : LowerCase where
  lower a := a.map Char.toLower
  lower_apart a b c hc := by
    rw [List.map_append, List.map_cons]
    rcases hc with rfl | rfl
    · rfl
    · rfl
  lower_lower a := by
    rw [List.map_map]
    exact List.map_congr_left fun c _ => Lowering.toLower_toLower c
  lower_eq_nil a := List.map_eq_nil_iff

inductive MediaType where
  | auto | movie | tv
  deriving DecidableEq, Repr

inductive CategoryKey where
  | anime | movie | tv
  deriving DecidableEq, Repr

/-- The folder of each category. -/
structure FolderNames where
  anime : Path := "动漫文件夹".toList
  movie : Path := "电影".toList
  tv : Path := "电视剧".toList
  deriving DecidableEq, Repr

def FolderNames.get (folders : FolderNames) : CategoryKey → Path
  | .anime => folders.anime
  | .movie => folders.movie
  | .tv => folders.tv

/-- `DEFAULT_ANIME_KEYWORDS` -/
def defaultAnimeKeywords : List Path :=
  ["anime".toList, "animation".toList, "动漫".toList, "番剧".toList]

/-- A row of `category_strategy`, and what is loaded of it. -/
structure CategoryStrategy where
  enabled : Bool := true
  animeKeywords : List Path := defaultAnimeKeywords
  folderNames : FolderNames := {}
  deriving DecidableEq, Repr

/-- `CategoryStrategyUpdateRequest` -/
structure CategoryStrategyUpdateRequest where
  enabled : Bool := true
  animeKeywords : List Path := []
  folderNames : List (Path × Path) :=
    [("anime".toList, "动漫文件夹".toList), ("movie".toList, "电影".toList), ("tv".toList, "电视剧".toList)]

/-- The row that `update_category_strategy` stores. -/
def updateCategoryStrategy (body : CategoryStrategyUpdateRequest) : CategoryStrategy where
  enabled := body.enabled
  animeKeywords := (body.animeKeywords.map strip).filter (· ≠ [])
  folderNames :=
    { anime := (body.folderNames.lookup "anime".toList).getD ({} : FolderNames).anime
      movie := (body.folderNames.lookup "movie".toList).getD ({} : FolderNames).movie
      tv := (body.folderNames.lookup "tv".toList).getD ({} : FolderNames).tv }

section Categories
variable (low : LowerCase)

/-- A keyword occurs in a lowered text. -/
def hasKeyword (keywords : List Path) (lowered : Path) : Bool :=
  keywords.any fun keyword => keyword ≠ [] && decide (low.lower keyword <:+: lowered)

/-- `_load_category_strategy` -/
def loadCategoryStrategy (row : Option CategoryStrategy) : CategoryStrategy := row.getD {}

/-- `_classify_file_name` -/
def classifyFileName (fileName : Path) (mediaType : MediaType) (strategy : CategoryStrategy) :
    CategoryKey :=
  let lowered := low.lower fileName
  if hasKeyword low strategy.animeKeywords lowered then .anime
  else
    match mediaType with
    | .movie => .movie
    | .tv => .tv
    | .auto => if "s01e".toList <:+: lowered ∨ "season".toList <:+: lowered then .tv else .movie

/-- The category of `preview_category_strategy`, and its folder. -/
def previewCategoryStrategy (row : Option CategoryStrategy) (fileName : Path) (mediaType : MediaType) :
    CategoryKey × Path :=
  let strategy := loadCategoryStrategy row
  let categoryKey := classifyFileName low fileName mediaType strategy
  (categoryKey, strategy.folderNames.get categoryKey)

/-- `_get_category_strategy` -/
def getCategoryStrategy (row : Option CategoryStrategy) : CategoryStrategy :=
  match row with
  | none => {}
  | some row =>
      let animeKeywords :=
        if row.animeKeywords = [] then defaultAnimeKeywords else row.animeKeywords
      { row with animeKeywords := animeKeywords.map low.lower }

/-- What of a `ScrapeItem` its category and its name are made of. -/
structure ScrapeItem where
  filePath : Path
  fileName : Path
  mediaType : MediaType := .auto
  title : Option Path := none
  originalTitle : Option Path := none
  year : Option ℤ := none
  season : Option ℤ := none
  episode : Option ℤ := none
  deriving DecidableEq, Repr

/-- The item of a scanned file. -/
def ScrapeItem.ofFile (filePath : Path) : ScrapeItem where
  filePath
  fileName := basename filePath

/-- `_hydrate_item_from_parser` -/
def hydrateItemFromParser (item : ScrapeItem) (info : MediaParser.Info)
    (requestedMediaType : MediaType) : ScrapeItem :=
  let title := (truthy (some info.title)).getD (splitext item.fileName).1
  { item with
    mediaType := match requestedMediaType with
      | .tv => .tv
      | .movie => .movie
      | .auto => if info.season ≠ none ∨ info.episode ≠ none then .tv else .movie
    title := some title
    originalTitle := some ((truthy (some info.originalTitle)).getD title)
    year := info.year.map Int.ofNat
    season := info.season.map Int.ofNat
    episode := info.episode.map Int.ofNat }

/-- `_resolve_category_key` -/
def resolveCategoryKey (item : ScrapeItem) (sourceFile : Path) (strategy : CategoryStrategy) :
    CategoryKey :=
  let text := low.lower (item.title.getD [] ++ ' ' :: item.fileName ++ ' ' :: sourceFile)
  if hasKeyword low strategy.animeKeywords text then .anime
  else if item.mediaType = .movie then .movie
  else .tv

/-- The category of a file that is processed with `only_rename`. -/
def processedCategory (row : Option CategoryStrategy) (filePath : Path) (mediaType : MediaType) :
    CategoryKey :=
  let item := ScrapeItem.ofFile filePath
  let item := hydrateItemFromParser item (MediaParser.parse item.fileName) mediaType
  resolveCategoryKey low item filePath (getCategoryStrategy low row)

end Categories

end SmartMedia.Scrape
