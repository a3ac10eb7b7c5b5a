import Mathlib.Data.Rat.Defs
import Mathlib.Order.Basic
import SmartMedia.Library.PythonText
import SmartMedia.Strm.StrmUrl

/-!
# The cache of first segments

`app/services/first_segment_cache_service.py`, and the part of `app/api/proxy.py` that fills the cache
and answers from it. Header names are compared as they are spelled; numbers in headers have no more
digits than `int` reads.
-/
namespace SmartMedia.Playback
open PythonText Strm

abbrev Bytes := List UInt8

abbrev Headers := List (Text × Text)

/-- The fields of the section `playback` that the cache reads. -/
structure FirstSegmentConfig where
  firstSegmentCacheEnabled : Bool
  firstSegmentCacheMb : ℤ
  firstSegmentCacheTtlSec : ℤ

namespace FirstSegmentConfig

def segmentSizeBytes (cfg : FirstSegmentConfig) : ℕ := cfg.firstSegmentCacheMb.toNat * 1024 * 1024

def isEnabled (cfg : FirstSegmentConfig) : Bool :=
  cfg.firstSegmentCacheEnabled && 0 < cfg.segmentSizeBytes

def ttlSeconds (cfg : FirstSegmentConfig) : ℕ := cfg.firstSegmentCacheTtlSec.toNat

end FirstSegmentConfig

structure FirstSegmentCacheEntry where
  data : Bytes
  totalLength : ℕ
  contentType : Text
  acceptRanges : Text
  etag : Option Text
  lastModified : Option Text
  expiresAt : ℚ

abbrev Entries := Text → Option FirstSegmentCacheEntry

section Service
variable (cfg : FirstSegmentConfig)

/-- `_prune_expired_locked` -/
def pruneExpired (entries : Entries) (now : ℚ) : Entries := fun cacheKey =>
  (entries cacheKey).filter fun entry => now < entry.expiresAt

/-- `FirstSegmentCacheService.get` -/
def getEntry (entries : Entries) (cacheKey : Text) (now : ℚ) :
    Option FirstSegmentCacheEntry × Entries :=
  if cfg.isEnabled = false then (none, entries)
  else (pruneExpired entries now cacheKey, pruneExpired entries now)

/-- `FirstSegmentCacheService.put`; the time of expiry of `entry` is not used. -/
def putEntry (entries : Entries) (cacheKey : Text) (entry : FirstSegmentCacheEntry) (now : ℚ) :
    Entries :=
  if cfg.isEnabled = false then entries
  else if cfg.ttlSeconds ≤ 0 ∨ entry.data = [] then entries
  else
    Function.update entries cacheKey <| some { entry with
      contentType := (truthy (some entry.contentType)).getD "application/octet-stream".toList
      acceptRanges := (truthy (some entry.acceptRanges)).getD "bytes".toList
      expiresAt := now + cfg.ttlSeconds }

end Service

section Responses

/-- A response of the upstream server, with its body as it arrives. -/
structure UpstreamResponse where
  status : ℕ
  headers : Headers
  chunks : List Bytes

structure Response where
  status : ℕ
  content : Bytes
  headers : Headers

/-- `isdigit` of a text that `int` reads. -/
def isNumber (text : Text) : Bool := text ≠ [] && text.all isDecimal

/-- What stands behind the last slash. -/
def afterSlash (text : Text) : Text := (text.reverse.takeWhile (· ≠ '/')).reverse

/-- `_extract_total_length_from_headers` -/
def extractTotalLengthFromHeaders (headers : Headers) : ℕ :=
  let contentRange := (headers.lookup "Content-Range".toList).getD []
  let total := Media.strip (afterSlash contentRange)
  if '/' ∈ contentRange ∧ isNumber total = true then intOf total
  else
    let contentLength := Media.strip ((headers.lookup "Content-Length".toList).getD [])
    if isNumber contentLength then intOf contentLength else 0

/-- `bytes {range_start}-{range_end}/{total_length}` -/
def contentRangeText (rangeStart rangeEnd totalLength : ℕ) : Text :=
  "bytes ".toList ++ decimal 0 rangeStart ++ '-' :: decimal 0 rangeEnd ++ '/' :: decimal 0 totalLength

/-- `_build_cached_first_segment_response` -/
def buildCachedFirstSegmentResponse (entry : FirstSegmentCacheEntry) (rangeStart rangeEnd : ℕ) :
    Response :=
  let payload := (entry.data.take (rangeEnd + 1)).drop rangeStart
  { status := 206
    content := payload
    headers :=
      [("Content-Type".toList, entry.contentType),
        ("Content-Length".toList, decimal 0 payload.length),
        ("Content-Range".toList, contentRangeText rangeStart rangeEnd entry.totalLength),
        ("Accept-Ranges".toList, (truthy (some entry.acceptRanges)).getD "bytes".toList)] ++
      ((truthy entry.etag).map ("ETag".toList, ·)).toList ++
      ((truthy entry.lastModified).map ("Last-Modified".toList, ·)).toList }

/-- The loop over the chunks. -/
def collect (segmentSize : ℕ) : List Bytes → Bytes → Bytes
  | [], collected => collected
  | chunk :: chunks, collected =>
      if chunk = [] then collect segmentSize chunks collected
      else if segmentSize - collected.length ≤ 0 then collected
      else
        let collected := collected ++ chunk.take (segmentSize - collected.length)
        if segmentSize ≤ collected.length then collected else collect segmentSize chunks collected

end Responses

section Proxy
variable (cfg : FirstSegmentConfig)

/-- `_prime_first_segment_cache`; the clock is read when the entry is put and when it is read again. -/
def primeFirstSegmentCache (entries : Entries) (cacheKey : Text) (response : UpstreamResponse)
    (putAt readAt : ℚ) : Option FirstSegmentCacheEntry × Entries :=
  if cfg.isEnabled = false ∨ cfg.segmentSizeBytes ≤ 0 then (none, entries)
  else if response.status ∉ [200, 206] then (none, entries)
  else
    let collected := collect cfg.segmentSizeBytes response.chunks []
    if collected = [] then (none, entries)
    else
      let totalLength := extractTotalLengthFromHeaders response.headers
      let totalLength := if totalLength ≤ 0 then collected.length else totalLength
      let entries := putEntry cfg entries cacheKey
        { data := collected
          totalLength
          contentType := (response.headers.lookup "Content-Type".toList).getD
            "application/octet-stream".toList
          acceptRanges := (response.headers.lookup "Accept-Ranges".toList).getD "bytes".toList
          etag := response.headers.lookup "ETag".toList
          lastModified := response.headers.lookup "Last-Modified".toList
          expiresAt := 0 } putAt
      getEntry cfg entries cacheKey readAt

/-- `_parse_bounded_range_header`: `^bytes=(\d+)-(\d+)$` -/
def parseBoundedRangeHeader (rangeHeader : Option Text) : Option (ℕ × ℕ) := do
  let rest ← dropLiteral "bytes=".toList (Media.strip (← truthy rangeHeader))
  let start := rest.takeWhile isDecimal
  let last ← dropLiteral ['-'] (rest.drop start.length)
  if isNumber start = false ∨ isNumber last = false then none
  else if intOf last < intOf start then none
  else some (intOf start, intOf last)

/-- `_is_first_segment_cacheable_range` -/
def isFirstSegmentCacheableRange (rangeHeader : Option Text) : Option (ℕ × ℕ) := do
  let (start, last) ← parseBoundedRangeHeader rangeHeader
  if start ≠ 0 then none
  else if cfg.segmentSizeBytes ≤ 0 ∨ cfg.segmentSizeBytes ≤ last then none
  else some (start, last)

/-- A request for a stream, with what the upstream server answers to a priming request and the times
at which the clock is read. -/
structure StreamRequest where
  cacheKey : Text
  method : Text
  rangeHeader : Option Text
  response : UpstreamResponse
  askedAt : ℚ
  putAt : ℚ
  readAt : ℚ

/-- The part of `proxy_stream_by_file_id` before it turns to the upstream server, with the response
that is built from the cache, if there is one. -/
def proxyStreamByFileId (entries : Entries) (request : StreamRequest) : Option Response × Entries :=
  if request.method.map Char.toUpper ≠ "GET".toList then (none, entries)
  else
    match isFirstSegmentCacheableRange cfg request.rangeHeader with
    | none => (none, entries)
    | some (rangeStart, rangeEnd) =>
        if cfg.isEnabled = false then (none, entries)
        else
          let (cached, entries) := getEntry cfg entries request.cacheKey request.askedAt
          let (cached, entries) := match cached with
            | some entry => (some entry, entries)
            | none => primeFirstSegmentCache cfg entries request.cacheKey request.response
                request.putAt request.readAt
          match cached with
          | none => (none, entries)
          | some entry =>
              if rangeEnd < entry.data.length then
                (some (buildCachedFirstSegmentResponse entry rangeStart rangeEnd), entries)
              else (none, entries)

end Proxy

end SmartMedia.Playback
