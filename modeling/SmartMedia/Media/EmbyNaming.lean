import SmartMedia.Media.MediaParser

/-!
# Emby names

The names of movies and episodes that `EmbyNamingService` of
`app/services/emby_naming_service.py` generates. A template is what `str.format` makes of it.
-/
namespace SmartMedia.Media
open PythonText MediaParser

structure NamingConfig where
  tvSeasonFolderTemplate : ℕ → Path := fun season => "Season ".toList ++ decimal 2 season
  tvEpisodeTemplate : Path → ℕ → ℕ → Path := fun title season episode =>
    title ++ " - S".toList ++ decimal 2 season ++ "E".toList ++ decimal 2 episode
  tvEpisodeWithTitleTemplate : Option (Path → ℕ → ℕ → Path → Path) :=
    some fun title season episode episodeTitle =>
      title ++ " - S".toList ++ decimal 2 season ++ "E".toList ++ decimal 2 episode ++
        " - ".toList ++ episodeTitle
  specialsFolder : Path := "Season 00".toList
  specialsEpisodeTemplate : Path → ℕ → Path := fun title episode =>
    title ++ " - S00E".toList ++ decimal 2 episode
  versionSeparator : Path := " - ".toList
  includeQuality : Bool := false
  includeSource : Bool := false
  includeCodec : Bool := false
  sanitizeFilenames : Bool := true
  includeTmdbId : Bool := false
  tmdbIdFormat : ℕ → Path := fun id => "[tmdbid=".toList ++ decimal 0 id ++ "]".toList

namespace EmbyNamingService
variable (config : NamingConfig)

/-- `ILLEGAL_CHARS` -/
def isIllegal (c : Char) : Bool := isOneOf ['<', '>', ':', '"', '/', '\\', '|', '?', '*'] c

/-- `s.strip(" .")` -/
def stripEnds (s : Path) : Path :=
  ((s.dropWhile (isOneOf [' ', '.'])).reverse.dropWhile (isOneOf [' ', '.'])).reverse

/-- `_sanitize_filename`. -/
def sanitizeFilename (filename : Path) : Path :=
  if config.sanitizeFilenames = false then filename
  else
    let sanitized := stripEnds (filename.map fun c => if isIllegal c then '_' else c)
    let sanitized := if 200 < sanitized.length then stripEnds (sanitized.take 200) else sanitized
    if sanitized = [] then "Unknown".toList else sanitized

/-- The name with the year, which counts as none when it is zero. -/
def withYear (name : Path) (year : Option ℕ) : Path :=
  match year.filter (· ≠ 0) with
  | some year => name ++ " (".toList ++ decimal 0 year ++ ")".toList
  | none => name

/-- A part that is to be included. -/
def included (include_ : Bool) (part : Option Path) : List Path :=
  if include_ then (truthy part).toList else []

/-- `generate_movie_name`: the folder and the file. -/
def generateMovieName (title : Path) (year : Option ℕ) (extension : Path) (tmdbId : Option ℕ)
    (quality source codec edition : Option Path) : Path × Path :=
  let baseName := withYear (sanitizeFilename config title) year
  let folderName :=
    match tmdbId.filter fun id => config.includeTmdbId = true ∧ id ≠ 0 with
    | some id => baseName ++ " ".toList ++ config.tmdbIdFormat id
    | none => baseName
  let fileParts := [baseName] ++ included true edition ++ included config.includeQuality quality ++
    included config.includeSource source ++ included config.includeCodec codec
  (folderName, config.versionSeparator.intercalate fileParts ++ extension)

/-- `generate_tv_show_name`: the show's folder, the season's and the file. -/
def generateTvShowName (title : Path) (year season episode : Option ℕ) (episodeTitle : Option Path)
    (extension : Path) (isSpecial : Bool) : Path × Option Path × Path :=
  let safeTitle := sanitizeFilename config title
  let showFolder := withYear safeTitle year
  if isSpecial then
    match episode.filter (· ≠ 0) with
    | some episode =>
        (showFolder, some config.specialsFolder,
          config.specialsEpisodeTemplate safeTitle episode ++ extension)
    | none => (showFolder, some config.specialsFolder, safeTitle ++ " - Special".toList ++ extension)
  else
    match season with
    | some season =>
        let fileName :=
          match episode with
          | some episode =>
              match truthy episodeTitle, config.tvEpisodeWithTitleTemplate with
              | some episodeTitle, some template =>
                  template safeTitle season episode (sanitizeFilename config episodeTitle)
              | _, _ => config.tvEpisodeTemplate safeTitle season episode
          | none => safeTitle ++ " - S".toList ++ decimal 2 season
        (showFolder, some (config.tvSeasonFolderTemplate season), fileName ++ extension)
    | none => (showFolder, none, safeTitle ++ extension)

end EmbyNamingService

end SmartMedia.Media
