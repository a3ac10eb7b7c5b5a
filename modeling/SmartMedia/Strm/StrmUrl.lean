import SmartMedia.Library.PercentEncoding
import SmartMedia.Media.Validators

/-!
# The URLs of STRM files

`app/utils/strm_url.py` and the part of `urllib.parse` it uses. Both regular expressions
match in at most one way at a position: no repeated class contains the character that has
to follow it, and no mode is a prefix of another one.
-/
namespace SmartMedia.Strm
open PercentEncoding Media

abbrev Text := List Char

section Patterns

/-- `re.search`, for a pattern with at most one match at a position. -/
def search {α : Type} (matchAt : Text → Option α) : Text → Option α
  | [] => matchAt []
  | c :: rest => (matchAt (c :: rest)).or (search matchAt rest)

/-- What follows a literal the text begins with. -/
def dropLiteral : Text → Text → Option Text
  | [], text => some text
  | c :: literal, d :: text => if c = d then dropLiteral literal text else none
  | _ :: _, [] => none

/-- `[A-Za-z0-9]`. -/
def isAlphanumeric (c : Char) : Bool :=
  ('A' ≤ c && c ≤ 'Z') || ('a' ≤ c && c ≤ 'z') || ('0' ≤ c && c ≤ '9')

/-- `[A-Za-z0-9_.:-]`. -/
def isIdChar (c : Char) : Bool := isAlphanumeric c || c ∈ ['_', '.', ':', '-']

inductive Mode
  | redirect
  | stream
  | video
deriving DecidableEq, Repr

def Mode.text : Mode → Text
  | .redirect => "redirect".toList
  | .stream => "stream".toList
  | .video => "video".toList

def proxyPrefix : Text := "/api/proxy/".toList

def stablePrefix : Text := "/strm/v1/m/".toList

/-- `_PROXY_URL_RE` at one position: its group `file_id`. -/
def matchProxy (text : Text) : Option Text := do
  let rest ← dropLiteral proxyPrefix text
  let rest ← [Mode.redirect, .stream, .video].findSome? fun mode =>
    dropLiteral (mode.text ++ ['/']) rest
  let fileId := rest.takeWhile isAlphanumeric
  if fileId = [] then none else some fileId

/-- `_STABLE_MEDIA_URL_RE` at one position: its groups `media_id` and `display_name`. -/
def matchStable (text : Text) : Option (Text × Text) := do
  let rest ← dropLiteral stablePrefix text
  let mediaId := rest.takeWhile isIdChar
  let rest ← dropLiteral ['/'] (rest.drop mediaId.length)
  let displayName := rest.takeWhile fun c => c ≠ '?' && c ≠ '#'
  if mediaId = [] ∨ displayName = [] then none else some (mediaId, displayName)

end Patterns

section UrlParse

/-- The checks of `urlsplit` that need `ipaddress` and `unicodedata`: the message of the
`ValueError`, if one is raised. -/
structure NetlocChecks where
  bracketedHost : Text → Option String
  normalized : Text → Option String

structure ParseResult where
  scheme : Text
  netloc : Text
  path : Text
  params : Text
  query : Text
  fragment : Text
deriving DecidableEq, Repr

def isSchemeChar (c : Char) : Bool := isAlphanumeric c || c ∈ ['+', '-', '.']

def isLetter (c : Char) : Bool := ('A' ≤ c && c ≤ 'Z') || ('a' ≤ c && c ≤ 'z')

/-- `_WHATWG_C0_CONTROL_OR_SPACE`. -/
def isControlOrSpace (c : Char) : Bool := c.toNat ≤ 0x20

/-- `_UNSAFE_URL_BYTES_TO_REMOVE`. -/
def isUnsafe (c : Char) : Bool := c ∈ ['\t', '\r', '\n']

def usesParams : List Text :=
  ["", "ftp", "hdl", "prospero", "http", "imap", "https", "shttp", "rtsp", "rtsps", "rtspu",
    "sip", "sips", "mms", "sftp", "tel"].map String.toList

/-- The part before the first character of the given ones, and the part from there on. -/
def cutAt (delimiters : List Char) (text : Text) : Text × Text :=
  let front := text.takeWhile (· ∉ delimiters)
  (front, text.drop front.length)

/-- The scheme in lower case, with what follows the colon. -/
def splitScheme (url : Text) : Text × Text :=
  match cutAt [':'] url with
  | (first :: name, _ :: rest) =>
      if isLetter first = true ∧ name.all isSchemeChar = true then
        ((first :: name).map Char.toLower, rest)
      else ([], url)
  | _ => ([], url)

/-- The `ValueError`s of a network location. -/
def checkNetloc (checks : NetlocChecks) (netloc : Text) : Except String Unit := do
  if ('[' ∈ netloc) ≠ (']' ∈ netloc) then throw "Invalid IPv6 URL"
  if '[' ∈ netloc then
    let host := (cutAt [']'] (cutAt ['['] netloc).2.tail).1
    if let some message := checks.bracketedHost host then throw message
  if netloc.all isAscii = false then
    if let some message := checks.normalized netloc then throw message

/-- `_splitparams`, for the part after the last slash. -/
def splitParams (path : Text) : Text × Text :=
  let last := (path.reverse.takeWhile (· ≠ '/')).reverse
  let (front, params) := cutAt [';'] last
  (path.take (path.length - last.length) ++ front, params.tail)

def urlparse (checks : NetlocChecks) (url : Text) : Except String ParseResult := do
  let url := (url.dropWhile isControlOrSpace).filter (!isUnsafe ·)
  let (scheme, url) := splitScheme url
  let (netloc, url) := match dropLiteral ['/', '/'] url with
    | some rest => cutAt ['/', '?', '#'] rest
    | none => ([], url)
  checkNetloc checks netloc
  let (url, fragment) := cutAt ['#'] url
  let (path, query) := cutAt ['?'] url
  let (path, params) := if scheme ∈ usesParams then splitParams path else (path, [])
  return { scheme, netloc, path, params, query := query.tail, fragment := fragment.tail }

end UrlParse

section Urls

/-- `proxy_base_url.rstrip("/")`. -/
def rstripSlashes (base : Text) : Text := (base.reverse.dropWhile (· = '/')).reverse

def buildProxyUrl (proxyBaseUrl fileId : Text) (mode : Mode) : Text :=
  rstripSlashes proxyBaseUrl ++ (proxyPrefix ++ (mode.text ++ '/' :: fileId))

/-- The safe set `"()[]-_."` with the characters that are always safe. -/
def isSafe (c : Char) : Bool :=
  isAlphanumeric c || c ∈ ['(', ')', '[', ']', '-', '_', '.', '~']

def buildStableMediaUrl (proxyBaseUrl mediaId displayName : Text) : Text :=
  rstripSlashes proxyBaseUrl ++ (stablePrefix ++ (mediaId ++ '/' :: quote isSafe displayName))

def extractFileIdFromProxyUrl (url : Text) : Option Text := search matchProxy url

/-- The loop over the two candidates, which both extractors share. -/
def searchStable (checks : NetlocChecks) (url : Text) : Except String (Option (Text × Text)) := do
  let parsed ← urlparse checks url
  return [parsed.path, strip url].findSome? (search matchStable)

def extractMediaIdFromUrl (checks : NetlocChecks) (url : Text) : Except String (Option Text) := do
  return (← searchStable checks url).map Prod.fst

def extractDisplayNameFromUrl (checks : NetlocChecks) (url : Text) :
    Except String (Option Text) := do
  return (← searchStable checks url).map fun groups => unquote groups.2

def quarkScheme : Text := "quark://".toList

/-- `text.replace(literal, "")`; the number counts the characters still to be passed. -/
def removeLiteral (literal : Text) : ℕ → Text → Text
  | _, [] => []
  | skip + 1, _ :: text => removeLiteral literal skip text
  | 0, c :: text =>
      if literal <+: c :: text then removeLiteral literal (literal.length - 1) text
      else c :: removeLiteral literal 0 text

def extractFileIdFromStrmContent (checks : NetlocChecks) (content : Text) :
    Except String (Option Text) := do
  let text := strip content
  if quarkScheme <+: text then
    return some (strip (removeLiteral quarkScheme 0 text))
  match extractFileIdFromProxyUrl text with
  | some fileId => return some fileId
  | none =>
      let parsed ← urlparse checks text
      return if parsed.path = [] then none else extractFileIdFromProxyUrl parsed.path

end Urls

section BaseUrl

/-- An http(s) URL of a host and an optional port, with any number of slashes after it. -/
structure BaseUrl where
  scheme : Text
  netloc : Text
  slashes : ℕ
  isHttp : scheme.map Char.toLower ∈ ["http".toList, "https".toList]
  netloc_ne_nil : netloc ≠ []
  netloc_chars : ∀ c ∈ netloc, c ∉ ['/', '?', '#'] ∧ isControlOrSpace c = false

def BaseUrl.text (base : BaseUrl) : Text :=
  base.scheme ++ (':' :: '/' :: '/' :: (base.netloc ++ List.replicate base.slashes '/'))

end BaseUrl

end SmartMedia.Strm
