import SmartMedia.Library.PythonRegex
import SmartMedia.Library.PythonText
import SmartMedia.Media.Paths

/-!
# Media file names

`MediaParser` of `app/utils/media_parser.py`, without its cache and the parser that asks a model.
-/
namespace SmartMedia.Media
open PythonRegex PythonRegex.Pattern PythonText

namespace MediaParser

section Classes

def isOneOf (cs : List Char) (c : Char) : Bool := cs.contains c

/-- `.` -/
def isAny (c : Char) : Bool := c ≠ '\n'

/-- `[\.\s\-\(]` -/
def isSeparator (c : Char) : Bool := isOneOf ['.', '-', '('] c || isSpace c

/-- `re.IGNORECASE` for one character of a pattern. -/
def sameIgnoringCase (c d : Char) : Bool :=
  d = c || d = c.toLower || d = c.toUpper ||
    (c.toLower = 'i' && isOneOf ['\u0130', '\u0131'] d) ||
    (c.toLower = 'k' && d = '\u212a') || (c.toLower = 's' && d = '\u017f')

end Classes

section Patterns

def titleGroup : Pattern := group "title" (oneOrMoreLazy isAny)

def digits (name : String) : Pattern := group name (oneOrMore isDecimal)

/-- `S01E02` -/
def standardPattern : Pattern :=
  seqs titleGroup [many isSeparator, one (isOneOf ['S', 's']), digits "season",
    one (isOneOf ['E', 'e']), digits "episode"]

/-- `第2季.01话` -/
def chineseSeasonPattern : Pattern :=
  seqs titleGroup [one fun c => isOneOf ['.', '-'] c || isSpace c, one (isOneOf ['第']),
    digits "season", one (isOneOf ['季']), opt fun c => isOneOf ['.', '-'] c || isSpace c,
    digits "episode", one (isOneOf ['集', '话'])]

/-- `EP01` and `E01` -/
def episodePattern : Pattern :=
  seqs titleGroup [many isSeparator, one (isOneOf ['E', 'e']), opt (isOneOf ['P', 'p']),
    digits "episode"]

/-- `第01集` -/
def chineseEpisodePattern : Pattern :=
  seqs titleGroup [opt fun c => isOneOf ['.', '-'] c || isSpace c, one (isOneOf ['第']),
    digits "episode", one (isOneOf ['集', '话'])]

/-- ` - 01` and ` 01 ` -/
def animePattern : Pattern :=
  seqs titleGroup [oneOrMore fun c => isOneOf ['-', '_'] c || isSpace c,
    group "episode" (chars isDecimal 2 (some 3) false),
    ahead (alt (alt (one isSpace) (one (isOneOf ['[', '.']))) last)]

/-- `S01E01E02` -/
def multiEpisodePattern : Pattern :=
  seqs titleGroup [many isSeparator, one (isOneOf ['S', 's']), digits "season",
    one (isOneOf ['E', 'e']), digits "episode", one (isOneOf ['E', 'e']), oneOrMore isDecimal]

/-- `EP01E02` -/
def episodePairPattern : Pattern :=
  seqs titleGroup [many isSeparator, one (isOneOf ['E', 'e']), opt (isOneOf ['P', 'p']),
    digits "episode", one (isOneOf ['E', 'e']), opt (isOneOf ['P', 'p']), oneOrMore isDecimal]

/-- `[group] title [attribute]` -/
def subtitleGroupPattern : Pattern :=
  seqs (one (isOneOf ['[']))
    [group "group" (oneOrMore fun c => !isOneOf [']'] c), one (isOneOf [']']), many isSpace,
      group "title" (oneOrMoreLazy fun c => !isOneOf ['[', ']'] c),
      alt (alt (alt (alt (seq (many isSpace) (one (isOneOf ['['])))
        (seq (many isSpace) (one (isOneOf ['-']))))
        (seq (oneOrMore isSpace) (chars isDecimal 2 (some 3) false)))
        (one (isOneOf ['.']))) last]

/-- `[title][year][resolution]` -/
def bracketPattern : Pattern :=
  seqs (one (isOneOf ['[']))
    [group "title" (oneOrMore fun c => !isOneOf [']'] c), one (isOneOf [']']), many isSpace,
      opt (isOneOf ['[']), group "year" (chars isDecimal 4 (some 4) false), opt (isOneOf [']']),
      many isSpace, opt (isOneOf ['[']),
      group "resolution" (seq (oneOrMore isDecimal) (one (isOneOf ['p', 'P']))),
      opt (isOneOf [']'])]

/-- `title.year.` -/
def yearPattern : Pattern :=
  seqs titleGroup [one fun c => isOneOf ['.', '(', '['] c || isSpace c,
    group "year" (chars isDecimal 4 (some 4) false),
    one fun c => isOneOf ['.', ')', ']'] c || isSpace c]

/-- `title (year)` -/
def bracketYearPattern : Pattern :=
  seqs titleGroup [many isSpace, one (isOneOf ['(', '[']),
    group "year" (chars isDecimal 4 (some 4) false), one (isOneOf [')', ']'])]

/-- `PATTERNS`, in the order in which they are tried. -/
def patterns : List Pattern :=
  [standardPattern, chineseSeasonPattern, episodePattern, chineseEpisodePattern, animePattern,
    multiEpisodePattern, episodePairPattern, subtitleGroupPattern, bracketPattern, yearPattern,
    bracketYearPattern]

end Patterns

section PostProcess

/-- A text in a pattern, whatever its case. -/
def literal (s : String) : Pattern :=
  match s.toList with
  | [] => chars isAny 0 (some 0) false
  | c :: cs => seqs (one (sameIgnoringCase c)) (cs.map fun c => one (sameIgnoringCase c))

/-- The suffixes that end a title. -/
def suffixes : List Pattern :=
  [literal "BluRay", literal "WEB-DL", literal "HDTV", literal "1080p", literal "720p",
    literal "2160p", literal "4K", literal "x264", literal "x265", literal "h264", literal "h265",
    literal "HEVC", literal "AVC", literal "AAC", literal "DDP",
    seqs (literal "S") [oneOrMore isDecimal, literal "E", oneOrMore isDecimal],
    seqs (literal "E") [opt (sameIgnoringCase 'P'), oneOrMore isDecimal],
    seqs (literal "第") [oneOrMore isDecimal, one (isOneOf ['集', '话'])],
    literal "REMUX", literal "UHD", literal "BD", literal "DVD", literal "CD1", literal "CD2",
    literal "PROPER", literal "REPACK", literal "LIMITED", literal "INTERNAL", literal "DTS",
    literal "DTS-HD", literal "TrueHD", literal "Atmos", literal "Hi10P", literal "8bit",
    literal "10bit"]

/-- `\s+{suffix}.*$` -/
def fromSuffix (suffix : Pattern) : Pattern :=
  seqs (oneOrMore isSpace) [suffix, many isAny, last]

/-- `\s+(19|20)\d{2}.*$` -/
def fromYear : Pattern :=
  seqs (oneOrMore isSpace)
    [alt (seq (one (isOneOf ['1'])) (one (isOneOf ['9'])))
      (seq (one (isOneOf ['2'])) (one (isOneOf ['0']))),
      chars isDecimal 2 (some 2) false, many isAny, last]

/-- `[\(\[].*?[\)\]]\s*$` -/
def closingBrackets : Pattern :=
  seqs (one (isOneOf ['(', '['])) [chars isAny 0 none true, one (isOneOf [')', ']']), many isSpace, last]

/-- `s.split()`. -/
def splitWords (s : Path) : List Path := (s.splitOnP isSpace).filter (· ≠ [])

/-- A leading group in brackets is dropped if there is something after it. -/
def withoutGroup (title : Path) : Path :=
  if title.head? = some '[' ∧ ']' ∈ title then
    let after := (title.dropWhile (· ≠ ']')).tail
    if strip after = [] then title else after
  else title

/-- `_post_process_title`. -/
def postProcessTitle (title : Path) : Path :=
  if title = [] then []
  else
    let title := withoutGroup title
    let title := strip (title.map fun c => if isOneOf ['.', '_'] c then ' ' else c)
    let title := suffixes.foldl (fun title suffix => (fromSuffix suffix).remove title) title
    let title := closingBrackets.remove (fromYear.remove title)
    strip ([' '].intercalate (splitWords title))

end PostProcess

section Parse

structure Info where
  title : Path
  originalTitle : Path
  year : Option ℕ
  season : Option ℕ
  episode : Option ℕ
  resolution : Option Path
  aiParsed : Bool
  source : String
  deriving DecidableEq, Repr

/-- `data.get(name)`, where an empty text counts as none. -/
def Match.get (m : Match) (name : String) : Option Path := truthy (m.groups.lookup name)

/-- What a match adds. -/
def Info.update (info : Info) (m : Match) : Info :=
  let title := (Match.get m "title").map postProcessTitle
  { info with
    title := title.getD info.title
    originalTitle := title.getD info.originalTitle
    year := ((Match.get m "year").map intOf).or info.year
    season := ((Match.get m "season").map intOf).or info.season
    episode := ((Match.get m "episode").map intOf).or info.episode
    resolution := (Match.get m "resolution").or info.resolution }

/-- `filename.rsplit(".", 1)[0]` -/
def nameWithoutExt (filename : Path) : Path :=
  if '.' ∈ filename then (filename.reverse.dropWhile (· ≠ '.')).tail.reverse else filename

/-- `(19|20)\d{2}` -/
def anyYear : Pattern :=
  seq (alt (seq (one (isOneOf ['1'])) (one (isOneOf ['9'])))
    (seq (one (isOneOf ['2'])) (one (isOneOf ['0'])))) (chars isDecimal 2 (some 2) false)

/-- The loop over the patterns, and the search for a year after it. -/
def parseWith (filename name : Path) : List Pattern → Info → Info
  | [], info =>
      match anyYear.search name with
      | some m => { info with year := some (intOf m.taken) }
      | none => info
  | r :: others, info =>
      match r.matchStart name with
      | none => parseWith filename name others info
      | some m =>
          let info := info.update m
          if info.title ≠ filename then info else parseWith filename name others info

/-- `parse`. -/
def parse (filename : Path) : Info :=
  parseWith filename (nameWithoutExt filename) patterns
    ⟨filename, filename, none, none, none, none, false, "regex"⟩

end Parse

end MediaParser

end SmartMedia.Media
