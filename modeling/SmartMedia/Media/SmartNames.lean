import Mathlib.Data.Int.Notation
import SmartMedia.Media.Containment
import SmartMedia.Media.EmbyNaming

/-!
# Where a smart rename puts a file

`_generate_new_name` of `app/services/media/smart_rename.py` with the default naming configuration,
which leaves out the TMDB id and all that tells versions apart. Years, seasons and episodes are any
integers. All names that are added are components of a path, and the file keeps its extension.
-/
namespace SmartMedia.Media.SmartNames
open PythonText MediaParser EmbyNamingService

section Naming

/-- An integer with at least so many characters. -/
def formatInt (width : ℕ) : ℤ → Path
  | .ofNat n => decimal width n
  | .negSucc n => '-' :: decimal (width - 1) (n + 1)

/-- `{title} ({year})`, or the title where the year is none or zero. -/
def withYear (title : Path) (year : Option ℤ) : Path :=
  match year.filter (· ≠ 0) with
  | some year => title ++ " (".toList ++ formatInt 0 year ++ ")".toList
  | none => title

/-- `generate_movie_name` -/
def generateMovieName (title : Path) (year : Option ℤ) (extension : Path) : Path × Path :=
  let baseName := withYear (sanitizeFilename {} title) year
  (baseName, baseName ++ extension)

/-- `generate_tv_show_name` -/
def generateTvShowName (title : Path) (year season episode : Option ℤ) (episodeTitle : Option Path)
    (extension : Path) (isSpecial : Bool) : Path × Option Path × Path :=
  let safeTitle := sanitizeFilename {} title
  let showFolder := withYear safeTitle year
  if isSpecial then
    match episode.filter (· ≠ 0) with
    | some episode =>
        (showFolder, some "Season 00".toList,
          safeTitle ++ " - S00E".toList ++ formatInt 2 episode ++ extension)
    | none => (showFolder, some "Season 00".toList, safeTitle ++ " - Special".toList ++ extension)
  else
    match season with
    | some season =>
        let fileName :=
          match episode with
          | some episode =>
              let code :=
                safeTitle ++ " - S".toList ++ formatInt 2 season ++ "E".toList ++ formatInt 2 episode
              match truthy episodeTitle with
              | some episodeTitle => code ++ " - ".toList ++ sanitizeFilename {} episodeTitle
              | none => code
          | none => safeTitle ++ " - S".toList ++ formatInt 2 season
        (showFolder, some ("Season ".toList ++ formatInt 2 season), fileName ++ extension)
    | none => (showFolder, none, safeTitle ++ extension)

theorem filter_natCast (n : Option ℕ) :
    (n.map Int.ofNat).filter (· ≠ 0) = (n.filter (· ≠ 0)).map Int.ofNat := by
  cases n with
  | none => rfl
  | some n =>
      cases n with
      | zero => rfl
      | succ n => rfl

theorem withYear_natCast (title : Path) (year : Option ℕ) :
    withYear title (year.map Int.ofNat) = EmbyNamingService.withYear title year := by
  rw [withYear, EmbyNamingService.withYear, filter_natCast]
  cases year.filter (· ≠ 0) with
  | none => rfl
  | some year => rfl

/-- For natural numbers these are the names of `EmbyNamingService`. -/
theorem generateMovieName_natCast (title extension : Path) (year tmdbId : Option ℕ) :
    generateMovieName title (year.map Int.ofNat) extension =
      EmbyNamingService.generateMovieName {} title year extension tmdbId none none none none := by
  have hnone :
      (tmdbId.filter fun id => ({} : NamingConfig).includeTmdbId = true ∧ id ≠ 0) = none := by
    rw [Option.filter_eq_none_iff]
    simp
  rw [generateMovieName, withYear_natCast, EmbyNamingService.generateMovieName, hnone]
  simp [included]

theorem generateTvShowName_natCast (title extension : Path) (year season episode : Option ℕ)
    (episodeTitle : Option Path) (isSpecial : Bool) :
    generateTvShowName title (year.map Int.ofNat) (season.map Int.ofNat)
        (episode.map Int.ofNat) episodeTitle extension isSpecial =
      EmbyNamingService.generateTvShowName {} title year season episode episodeTitle extension
        isSpecial := by
  unfold generateTvShowName EmbyNamingService.generateTvShowName
  dsimp only
  rw [withYear_natCast, filter_natCast]
  cases isSpecial with
  | true =>
      cases episode.filter (· ≠ 0) with
      | none => rfl
      | some episode => rfl
  | false =>
      cases season with
      | none => rfl
      | some season =>
          cases episode with
          | none => rfl
          | some episode =>
              cases truthy episodeTitle with
              | none => simp [formatInt]
              | some episodeTitle => simp [formatInt]

end Naming

section Item

/-- The fields of an item that its new name is made of. -/
structure SmartRenameItem where
  originalPath : Path
  originalName : Path
  parsedTitle : Option Path := none
  parsedYear : Option ℤ := none
  tmdbTitle : Option Path := none
  tmdbYear : Option ℤ := none
  mediaType : Path
  season : Option ℤ := none
  episode : Option ℤ := none
  episodeTitle : Option Path := none
  deriving DecidableEq, Repr

namespace SmartRenameItem
variable (item : SmartRenameItem)

def title : Path := (truthy item.tmdbTitle).getD (item.parsedTitle.getD "Unknown".toList)

def year : Option ℤ := (item.tmdbYear.filter (· ≠ 0)).or item.parsedYear

def extension : Path := (splitext item.originalName).2

/-- `_generate_new_name` -/
def generateNewName (createFolders : Bool) : Path × Path :=
  let directory := dirname item.originalPath
  if item.mediaType = "movie".toList then
    let (folderName, fileName) := generateMovieName item.title item.year item.extension
    if createFolders then (join (join directory folderName) fileName, fileName)
    else (join directory fileName, fileName)
  else
    let (showFolder, seasonFolder, fileName) := generateTvShowName item.title item.year item.season
      item.episode item.episodeTitle item.extension
      (item.mediaType = "anime".toList && item.episode = none)
    match createFolders, seasonFolder.filter (· ≠ []) with
    | true, some seasonFolder =>
        (join (join (join directory showFolder) seasonFolder) fileName, fileName)
    | true, none => (join (join directory showFolder) fileName, fileName)
    | false, _ => (join directory fileName, fileName)

end SmartRenameItem

end Item

section Components
variable {s stem suffix ext : Path}

/-- Some character is no dot. -/
def Solid (s : Path) : Prop := '/' ∉ s ∧ ∃ c ∈ s, c ≠ '.'

theorem Solid.plain (h : Solid s) : Plain s := by
  obtain ⟨hslash, c, hc, hdot⟩ := h
  refine ⟨List.ne_nil_of_mem hc, hslash, ?_, ?_⟩
  · rintro rfl
    exact hdot (List.mem_singleton.mp hc)
  · rintro rfl
    rcases List.mem_pair.mp hc with rfl | rfl
    · exact hdot rfl
    · exact hdot rfl

theorem Solid.append (h : Solid s) (hsuffix : '/' ∉ suffix) : Solid (s ++ suffix) := by
  obtain ⟨hslash, c, hc, hdot⟩ := h
  rw [Solid, List.mem_append, not_or]
  exact ⟨⟨hslash, hsuffix⟩, c, List.mem_append_left suffix hc, hdot⟩

theorem slash_notMem_formatInt (width : ℕ) (n : ℤ) : '/' ∉ formatInt width n := by
  have hdecimal : ∀ width n, '/' ∉ decimal width n := by
    intro width n h
    exact absurd (isDigit_of_mem_decimal h) (by decide)
  cases n with
  | ofNat n => exact hdecimal width n
  | negSucc n =>
      rw [formatInt, List.mem_cons, not_or]
      exact ⟨by decide, hdecimal _ _⟩

theorem mem_stripEnds {c : Char} (h : c ∈ stripEnds s) : c ∈ s := by
  rw [stripEnds, List.mem_reverse] at h
  exact (List.dropWhile_sublist _).subset (List.mem_reverse.mp ((List.dropWhile_sublist _).subset h))

/-- What is left does not end with a dot. -/
theorem exists_ne_dot_of_stripEnds (h : stripEnds s ≠ []) : ∃ c ∈ stripEnds s, c ≠ '.' := by
  rw [stripEnds] at h ⊢
  generalize (s.dropWhile (isOneOf [' ', '.'])).reverse = t at h ⊢
  cases ht : t.dropWhile (isOneOf [' ', '.']) with
  | nil =>
      rw [ht] at h
      exact absurd rfl h
  | cons c rest =>
      refine ⟨c, by simp, ?_⟩
      rintro rfl
      have hhead := List.head?_dropWhile_not (isOneOf [' ', '.']) t
      rw [ht] at hhead
      cases hhead

/-- A sanitized name has no slash and is not made of dots. -/
theorem solid_sanitizeFilename (s : Path) : Solid (sanitizeFilename {} s) := by
  have hmap : '/' ∉ s.map fun c => if isIllegal c then '_' else c := by
    intro h
    obtain ⟨c, -, hc⟩ := List.mem_map.mp h
    split_ifs at hc with hillegal
    · exact absurd hc (by decide)
    · rw [hc] at hillegal
      exact hillegal (by decide)
  have hunknown : Solid "Unknown".toList := ⟨by decide, 'U', by decide, by decide⟩
  rw [sanitizeFilename, if_neg (by simp)]
  dsimp only
  generalize (s.map fun c => if isIllegal c then '_' else c) = t at hmap
  split_ifs with hlong hempty hempty
  · exact hunknown
  · refine ⟨fun h => hmap (mem_stripEnds (List.mem_of_mem_take (mem_stripEnds h))), ?_⟩
    exact exists_ne_dot_of_stripEnds hempty
  · exact hunknown
  · exact ⟨fun h => hmap (mem_stripEnds h), exists_ne_dot_of_stripEnds hempty⟩

theorem solid_withYear (h : Solid s) (year : Option ℤ) : Solid (withYear s year) := by
  rw [withYear]
  cases year.filter (· ≠ 0) with
  | none => exact h
  | some year =>
      exact ((h.append (by decide)).append (slash_notMem_formatInt 0 year)).append (by decide)

/-- The file keeps its extension, if it has one. -/
theorem splitext_append_extension (h : Solid stem) {name : Path} (hname : (splitext name).2 ≠ []) :
    (splitext (stem ++ (splitext name).2)).2 = (splitext name).2 := by
  obtain ⟨hslash, c, hc, hdot⟩ := h
  rcases splitext_cases name with ⟨rest, -, -, hsplit⟩ | ⟨-, hsplit⟩
  · have hpart : ∀ d ∈ lastPart name, (d ≠ '/' && d ≠ '.') = true := fun d hd =>
      List.mem_takeWhile_imp (p := fun c => c ≠ '/' && c ≠ '.') hd
    have hlast : lastPart (stem ++ '.' :: (lastPart name).reverse) = lastPart name := by
      rw [lastPart, List.reverse_append, List.reverse_cons, List.reverse_reverse, List.append_assoc,
        List.takeWhile_append_of_pos hpart, List.singleton_append,
        List.takeWhile_cons_of_neg (by simp), List.append_nil]
    have hdrop : (stem ++ '.' :: (lastPart name).reverse).reverse.drop
        (lastPart (stem ++ '.' :: (lastPart name).reverse)).length = '.' :: stem.reverse := by
      rw [hlast, List.reverse_append, List.reverse_cons, List.reverse_reverse, List.append_assoc,
        List.drop_left, List.singleton_append]
    have hany : (stem.reverse.takeWhile (· ≠ '/')).any (· ≠ '.') = true := by
      have htake : stem.reverse.takeWhile (· ≠ '/') = stem.reverse := by
        rw [List.takeWhile_eq_self_iff]
        intro d hd
        rw [decide_eq_true_iff]
        rintro rfl
        exact hslash (List.mem_reverse.mp hd)
      rw [htake, List.any_eq_true]
      exact ⟨c, List.mem_reverse.mpr hc, decide_eq_true hdot⟩
    rw [hsplit]
    dsimp only
    rcases splitext_cases (stem ++ '.' :: (lastPart name).reverse) with
      ⟨rest', hdrop', -, hsplit'⟩ | ⟨hno, -⟩
    · rw [hsplit', hlast]
    · rw [hno _ hdrop] at hany
      cases hany
  · rw [hsplit] at hname
    exact absurd rfl hname

/-- What is joined to a path becomes its last component. -/
theorem components_join {directory : Path} (h : Plain s) :
    components (join directory s) = components directory ++ [s] := by
  have hhead : s.head? ≠ some '/' := fun h' => h.noSlash (List.mem_of_mem_head? h')
  rw [join, if_neg hhead]
  split_ifs with hend
  · rcases hend with rfl | hlast
    · exact components_plain h
    · obtain ⟨above, hdirectory⟩ := List.getLast?_eq_some_iff.mp hlast
      have hslash : components (above ++ ['/']) = components above := by
        rw [components_append]
        exact List.append_nil _
      rw [hdirectory, hslash, List.append_assoc, List.singleton_append, components_append,
        components_plain h]
  · rw [components_append, components_plain h]

theorem resolve_join (cwd : List Path) {directory : Path} (h : Plain s) :
    resolve cwd (join directory s) [] = resolve cwd directory [] ++ [s] := by
  have hhead : (join directory s).head? = some '/' ↔ directory.head? = some '/' := by
    have hs : s.head? ≠ some '/' := fun h' => h.noSlash (List.mem_of_mem_head? h')
    rw [join, if_neg hs]
    cases directory with
    | nil => simpa using hs
    | cons c directory => split_ifs <;> simp
  have hplain : ∀ c ∈ [s], Plain c := by
    intro c hc
    rw [List.mem_singleton.mp hc]
    exact h
  rw [resolve, resolve, components_join h, List.append_nil, List.append_nil, ← List.append_assoc,
    normalize_append _ hplain]
  by_cases habsolute : directory.head? = some '/'
  · rw [if_pos (hhead.mpr habsolute), if_pos habsolute]
  · rw [if_neg (mt hhead.mp habsolute), if_neg habsolute]

end Components

section Inside
variable (item : SmartRenameItem) (createFolders : Bool)

/-- The new path is made of components that are added to the directory of the file, the last of them
being its new name, which keeps the extension. -/
structure StaysInside (directory extension : Path) (result : Path × Path) : Prop where
  added : ∃ folders : List Path, (∀ c ∈ folders ++ [result.2], Plain c) ∧
    result.1 = (folders ++ [result.2]).foldl join directory ∧
    ∀ cwd, resolve cwd result.1 [] = resolve cwd directory [] ++ (folders ++ [result.2])
  extended : ∃ stem, stem ≠ [] ∧ result.2 = stem ++ extension
  kept : extension ≠ [] → (splitext result.2).2 = extension

theorem resolve_foldl_join (cwd : List Path) {names : List Path} {directory : Path}
    (h : ∀ c ∈ names, Plain c) :
    resolve cwd (names.foldl join directory) [] = resolve cwd directory [] ++ names := by
  induction names generalizing directory with
  | nil => exact (List.append_nil _).symm
  | cons n names ih =>
      rw [List.foldl_cons, ih fun c hc => h c (List.mem_cons_of_mem n hc),
        resolve_join cwd (h n List.mem_cons_self), List.append_assoc, List.singleton_append]

/-- Folders and a name that have no slash and are not made of dots. -/
theorem staysInside_of_solid {directory stem name : Path} {folders : List Path}
    (hfolders : ∀ c ∈ folders, Solid c) (hstem : Solid stem) :
    StaysInside directory (splitext name).2
      ((folders ++ [stem ++ (splitext name).2]).foldl join directory, stem ++ (splitext name).2) where
  added := by
    have hplain : ∀ c ∈ folders ++ [stem ++ (splitext name).2], Plain c := by
      intro c hc
      rcases List.mem_append.mp hc with hc | hc
      · exact (hfolders c hc).plain
      · rw [List.mem_singleton.mp hc]
        exact (hstem.append (splitext_noSlash name)).plain
    exact ⟨folders, hplain, rfl, fun cwd => resolve_foldl_join cwd hplain⟩
  extended := ⟨stem, hstem.plain.nonempty, rfl⟩
  kept := splitext_append_extension hstem

/-- The parts of an episode's name. -/
theorem generateTvShowName_solid (title : Path) (year season episode : Option ℤ)
    (episodeTitle : Option Path) (extension : Path) (isSpecial : Bool) :
    let names := generateTvShowName title year season episode episodeTitle extension isSpecial
    Solid names.1 ∧ (∀ folder ∈ names.2.1, Solid folder) ∧
      ∃ stem, Solid stem ∧ names.2.2 = stem ++ extension := by
  have hsafe := solid_sanitizeFilename title
  have hshow := solid_withYear hsafe year
  have hseason :
      ∀ n : Path, '/' ∉ n → ∀ folder ∈ some ("Season ".toList ++ n), Solid folder := by
    rintro n hn folder ⟨⟩
    exact Solid.append ⟨by decide, 'S', by decide, by decide⟩ hn
  have hcode : ∀ n : ℤ, Solid (sanitizeFilename {} title ++ " - S".toList ++ formatInt 2 n) :=
    fun n => (hsafe.append (by decide)).append (slash_notMem_formatInt 2 n)
  unfold generateTvShowName
  cases isSpecial with
  | true =>
      cases episode.filter (· ≠ 0) with
      | none => exact ⟨hshow, hseason "00".toList (by decide), _, hsafe.append (by decide), rfl⟩
      | some episode =>
          refine ⟨hshow, hseason "00".toList (by decide), _, ?_, rfl⟩
          exact (hsafe.append (by decide)).append (slash_notMem_formatInt 2 episode)
  | false =>
      cases season with
      | none =>
          refine ⟨hshow, ?_, _, hsafe, rfl⟩
          rintro folder ⟨⟩
      | some season =>
          refine ⟨hshow, hseason _ (slash_notMem_formatInt 2 season), _, ?_, rfl⟩
          cases episode with
          | none => exact hcode season
          | some episode =>
              have hepisode : Solid (sanitizeFilename {} title ++ " - S".toList ++ formatInt 2 season ++
                  "E".toList ++ formatInt 2 episode) :=
                ((hcode season).append (by decide)).append (slash_notMem_formatInt 2 episode)
              dsimp only
              cases truthy episodeTitle with
              | none => exact hepisode
              | some episodeTitle =>
                  exact (hepisode.append (by decide)).append (solid_sanitizeFilename episodeTitle).1

/-- The new name of a file stays in its directory. -/
theorem generateNewName_inside :
    StaysInside (dirname item.originalPath) item.extension (item.generateNewName createFolders) := by
  have hinside : ∀ (folders : List Path) (stem : Path), (∀ c ∈ folders, Solid c) → Solid stem →
      StaysInside (dirname item.originalPath) item.extension
        ((folders ++ [stem ++ item.extension]).foldl join (dirname item.originalPath),
          stem ++ item.extension) :=
    fun folders stem hfolders hstem => staysInside_of_solid hfolders hstem
  unfold SmartRenameItem.generateNewName
  dsimp only
  by_cases hmovie : item.mediaType = "movie".toList
  · have hbase := solid_withYear (solid_sanitizeFilename item.title) item.year
    rw [if_pos hmovie]
    cases createFolders with
    | true => exact hinside [_] _ (List.forall_mem_singleton.mpr hbase) hbase
    | false => exact hinside [] _ (List.forall_mem_nil _) hbase
  · obtain ⟨hshow, hseason, stem, hstem, hname⟩ := generateTvShowName_solid item.title item.year
      item.season item.episode item.episodeTitle item.extension
      (item.mediaType = "anime".toList && item.episode = none)
    rw [if_neg hmovie, hname]
    split
    · next seasonFolder hfolder =>
        have hsolid := hseason seasonFolder (Option.filter_eq_some_iff.mp hfolder).1
        have hfolders := List.forall_mem_cons.mpr ⟨hshow, List.forall_mem_singleton.mpr hsolid⟩
        exact hinside [_, seasonFolder] _ hfolders hstem
    · exact hinside [_] _ (List.forall_mem_singleton.mpr hshow) hstem
    · exact hinside [] _ (List.forall_mem_nil _) hstem

end Inside

end SmartMedia.Media.SmartNames
