import SmartMedia.Playback.FirstSegmentCache

/-!
# First segments as the origin serves them

A response from the cache states the total length that was kept with the segment. It is read from the
headers of the priming response as they are spelled, and is otherwise taken from what was sent.
-/
namespace SmartMedia.Playback
open PythonText Strm

section Origin
variable (object : Bytes) (segmentSize : ℕ) (response : UpstreamResponse)

/-- The values of a header, in whatever case its name is spelled. -/
def fieldValues (headers : Headers) (name : Text) : List Text :=
  headers.filterMap fun header =>
    if header.1.map Char.toLower = name.map Char.toLower then some header.2 else none

def UpstreamResponse.body : Bytes := response.chunks.flatten

/-- The whole object. -/
structure IsWhole : Prop where
  status : response.status = 200
  body : response.body = object
  range : fieldValues response.headers "Content-Range".toList = []
  length : fieldValues response.headers "Content-Length".toList = [] ∨
    fieldValues response.headers "Content-Length".toList = [decimal 0 object.length]

/-- `bytes 0-{last}/{total}`, with a star for a total that is not stated. -/
def partRange (count : ℕ) (total : Option ℕ) : Text :=
  "bytes ".toList ++ decimal 0 0 ++ '-' :: decimal 0 (count - 1) ++
    '/' :: total.elim ['*'] (decimal 0 ·)

/-- The first bytes of the object, not more than were asked for. -/
structure IsPart (count : ℕ) (total : Option ℕ) : Prop where
  status : response.status = 206
  positive : 1 ≤ count
  asked : count ≤ segmentSize
  body : response.body = object.take count
  inside : count ≤ object.length
  stated : total = some object.length ∨ total = none
  range : fieldValues response.headers "Content-Range".toList = [partRange count total]
  length : fieldValues response.headers "Content-Length".toList = [] ∨
    fieldValues response.headers "Content-Length".toList = [decimal 0 count]

/-- What the origin may answer to a request for the first segment. -/
def Legal : Prop :=
  IsWhole object response ∨ ∃ count total, IsPart object segmentSize response count total

/-- The total is not left open by a star. -/
def Determined : Prop :=
  ∀ value ∈ fieldValues response.headers "Content-Range".toList, value.getLast? ≠ some '*'

/-- What the origin would answer to a request for the bytes up to `last`. -/
structure Faithful (last : ℕ) (answer : Response) : Prop where
  content : answer.content = object.take (min last (object.length - 1) + 1)
  range : answer.headers.lookup "Content-Range".toList =
    some (contentRangeText 0 (min last (object.length - 1)) object.length)
  length : answer.headers.lookup "Content-Length".toList = some (decimal 0 answer.content.length)

/-- The total is spelled in the usual way, or all bytes are sent. -/
def TotalFound : Prop :=
  response.status = 200 ∧ ((response.headers.lookup "Content-Length".toList).isSome = true ∨
      object.length ≤ segmentSize) ∨
    response.status = 206 ∧ Determined response ∧
      ((response.headers.lookup "Content-Range".toList).isSome = true ∨
        response.body.length = object.length)

end Origin

section Texts
variable {headers : Headers} {name value : Text} {text rest : Text} {n : ℕ}

/-- A name that is spelled so is found in any case. -/
theorem mem_fieldValues (h : headers.lookup name = some value) : value ∈ fieldValues headers name := by
  obtain ⟨before, after, hheaders, -⟩ := List.lookup_eq_some_iff.mp h
  refine List.mem_filterMap.mpr ⟨(name, value), ?_, if_pos rfl⟩
  rw [hheaders]
  exact List.mem_append_right _ List.mem_cons_self

theorem lookup_eq_none (h : fieldValues headers name = []) : headers.lookup name = none := by
  cases hlookup : headers.lookup name with
  | none => rfl
  | some value => exact absurd (h ▸ mem_fieldValues hlookup) List.not_mem_nil

theorem lookup_eq_some (h : fieldValues headers name = [value])
    (hspelled : (headers.lookup name).isSome = true) : headers.lookup name = some value := by
  obtain ⟨found, hfound⟩ := Option.isSome_iff_exists.mp hspelled
  have hmem := mem_fieldValues hfound
  rw [h] at hmem
  rw [hfound, List.mem_singleton.mp hmem]

theorem strip_eq_self (h : ∀ c ∈ text, Media.isSpace c = false) : Media.strip text = text := by
  have hdrop : ∀ t : Text, (∀ c ∈ t, Media.isSpace c = false) → t.dropWhile Media.isSpace = t := by
    intro t ht
    cases t with
    | nil => rfl
    | cons c t => rw [List.dropWhile_cons_of_neg (by simp [ht c List.mem_cons_self])]
  rw [Media.strip, hdrop text h, hdrop text.reverse fun c hc => h c (List.mem_reverse.mp hc),
    List.reverse_reverse]

theorem isSpace_of_isDigit {c : Char} (h : c.isDigit = true) : Media.isSpace c = false := by
  have hbounds := Char.isDigit_iff_toNat.mp h
  have hzero : '0'.toNat = 48 := rfl
  have hnine : '9'.toNat = 57 := rfl
  rw [Media.isSpace]
  simp only [Bool.or_eq_false_iff, Bool.and_eq_false_iff, decide_eq_false_iff_not]
  omega

theorem strip_decimal (n : ℕ) : Media.strip (decimal 0 n) = decimal 0 n :=
  strip_eq_self fun _ hc => isSpace_of_isDigit (isDigit_of_mem_decimal hc)

theorem isNumber_decimal (n : ℕ) : isNumber (decimal 0 n) = true := by
  rw [isNumber, Bool.and_eq_true, decide_eq_true_iff, List.all_eq_true]
  exact ⟨decimal_ne_nil 0 n, fun c hc => isDecimal_of_isDigit (isDigit_of_mem_decimal hc)⟩

theorem afterSlash_append (h : '/' ∉ rest) : afterSlash (text ++ '/' :: rest) = rest := by
  rw [afterSlash, List.reverse_append, List.reverse_cons, List.append_assoc, List.singleton_append,
    List.takeWhile_append_of_pos, List.takeWhile_cons_of_neg (by simp), List.append_nil,
    List.reverse_reverse]
  intro c hc
  rw [decide_eq_true_iff]
  rintro rfl
  exact h (List.mem_reverse.mp hc)

theorem slash_notMem_decimal (n : ℕ) : '/' ∉ decimal 0 n := by
  intro h
  have hdigit := isDigit_of_mem_decimal h
  exact absurd hdigit (by decide)

end Texts

section Collecting
variable {segmentSize : ℕ} {chunks : List Bytes} {collected : Bytes}

/-- However it is cut into chunks, the beginning of the body is collected. -/
theorem collect_eq (h : collected.length ≤ segmentSize) :
    collect segmentSize chunks collected = (collected ++ chunks.flatten).take segmentSize := by
  induction chunks generalizing collected with
  | nil => rw [collect, List.flatten_nil, List.append_nil, List.take_of_length_le h]
  | cons chunk chunks ih =>
      rw [collect, List.flatten_cons, ← List.append_assoc]
      split_ifs with hempty hfull
      · rw [hempty, List.append_nil]
        exact ih h
      · have hlength : segmentSize = collected.length := by omega
        rw [List.append_assoc, hlength, List.take_left]
      · have hcut : (collected ++ chunk.take (segmentSize - collected.length)) =
            (collected ++ chunk).take segmentSize := by
          rw [List.take_append, List.take_of_length_le h]
        dsimp only
        rw [hcut]
        split_ifs with hend
        · rw [List.length_take] at hend
          rw [List.take_append_of_le_length (Nat.le_min.mp hend).2]
        · have hshort : (collected ++ chunk).length ≤ segmentSize := by
            rw [List.length_take] at hend
            omega
          rw [List.take_of_length_le hshort]
          exact ih hshort

end Collecting

section Priming
variable {object : Bytes} {cfg : FirstSegmentConfig} {response : UpstreamResponse} {count : ℕ}
  {total : Option ℕ} {segmentSize : ℕ}

/-- The total that is kept with a segment. -/
def keptTotal (segmentSize : ℕ) (response : UpstreamResponse) : ℕ :=
  if extractTotalLengthFromHeaders response.headers ≤ 0 then
    (response.body.take segmentSize).length
  else extractTotalLengthFromHeaders response.headers

/-- Without a total, the length of the body counts. -/
theorem extractTotal_of_length {headers : Headers} {n : ℕ}
    (hrange : headers.lookup "Content-Range".toList = none ∨
      ∃ before, headers.lookup "Content-Range".toList = some (before ++ '/' :: ['*']))
    (hlength : fieldValues headers "Content-Length".toList = [] ∨
      fieldValues headers "Content-Length".toList = [decimal 0 n]) :
    extractTotalLengthFromHeaders headers =
      if (headers.lookup "Content-Length".toList).isSome then n else 0 := by
  have htotal : ¬('/' ∈ (headers.lookup "Content-Range".toList).getD [] ∧
      isNumber (Media.strip (afterSlash ((headers.lookup "Content-Range".toList).getD []))) = true) := by
    rcases hrange with hnone | ⟨before, hstar⟩
    · rw [hnone]
      exact fun h => List.not_mem_nil h.1
    · rw [hstar, Option.getD_some, afterSlash_append (by decide)]
      exact fun h => absurd h.2 (by decide)
  rw [extractTotalLengthFromHeaders]
  dsimp only
  rw [if_neg htotal]
  cases hlookup : headers.lookup "Content-Length".toList with
  | none => rfl
  | some value =>
      have hvalue : value = decimal 0 n := by
        have hmem := mem_fieldValues hlookup
        rcases hlength with hnil | hone
        · rw [hnil] at hmem
          cases hmem
        · rw [hone] at hmem
          exact List.mem_singleton.mp hmem
      rw [Option.getD_some, hvalue, strip_decimal, if_pos (isNumber_decimal n), intOf_decimal]
      rfl

theorem IsWhole.keptTotal_eq (h : IsWhole object response) (hne : object ≠ []) :
    keptTotal segmentSize response = object.length ↔
      (response.headers.lookup "Content-Length".toList).isSome = true ∨
        object.length ≤ segmentSize := by
  have hpositive := List.length_pos_of_ne_nil hne
  rw [keptTotal, extractTotal_of_length (.inl (lookup_eq_none h.range)) h.length, h.body,
    List.length_take]
  by_cases hspelled : (response.headers.lookup "Content-Length".toList).isSome = true
  · rw [if_pos hspelled, if_neg (Nat.not_le.mpr hpositive)]
    exact iff_of_true rfl (.inl hspelled)
  · rw [if_neg hspelled, if_pos le_rfl, or_iff_right hspelled]
    exact min_eq_right_iff

theorem partRange_eq (count : ℕ) (total : Option ℕ) : ∃ before,
    partRange count total = before ++ '/' :: total.elim ['*'] (decimal 0 ·) :=
  ⟨_, rfl⟩

/-- Without a total in the headers, the part is taken for the whole. -/
theorem IsPart.keptTotal_of_unstated (h : IsPart object segmentSize response count total)
    (hrange : response.headers.lookup "Content-Range".toList = none ∨ total = none) :
    keptTotal segmentSize response = count := by
  have hnone : response.headers.lookup "Content-Range".toList = none ∨
      ∃ before, response.headers.lookup "Content-Range".toList = some (before ++ '/' :: ['*']) := by
    cases hlookup : response.headers.lookup "Content-Range".toList with
    | none => exact .inl rfl
    | some value =>
        right
        rcases hrange with hunspelled | rfl
        · rw [hlookup] at hunspelled
          cases hunspelled
        · have hmem := mem_fieldValues hlookup
          rw [h.range, List.mem_singleton] at hmem
          obtain ⟨before, hbefore⟩ := partRange_eq count none
          exact ⟨before, congrArg some (hmem.trans hbefore)⟩
  have hcount : ((object.take count).take segmentSize).length = count := by
    have hasked := h.asked
    have hinside := h.inside
    rw [List.length_take, List.length_take]
    omega
  rw [keptTotal, extractTotal_of_length hnone h.length, h.body, hcount]
  by_cases hspelled : (response.headers.lookup "Content-Length".toList).isSome = true
  · rw [if_pos hspelled, if_neg (Nat.not_le.mpr h.positive)]
  · rw [if_neg hspelled, if_pos le_rfl]

theorem IsPart.keptTotal_of_stated
    (h : IsPart object segmentSize response count (some object.length))
    (hspelled : (response.headers.lookup "Content-Range".toList).isSome = true) :
    keptTotal segmentSize response = object.length := by
  have hpositive : 0 < object.length := h.positive.trans h.inside
  obtain ⟨before, hbefore⟩ := partRange_eq count (some object.length)
  have htotal : extractTotalLengthFromHeaders response.headers = object.length := by
    have hread : Media.strip (afterSlash (partRange count (some object.length))) =
        decimal 0 object.length := by
      rw [hbefore, Option.elim_some, afterSlash_append (slash_notMem_decimal _), strip_decimal]
    have hslash : '/' ∈ partRange count (some object.length) := by
      rw [hbefore]
      exact List.mem_append_right _ List.mem_cons_self
    rw [extractTotalLengthFromHeaders, lookup_eq_some h.range hspelled, Option.getD_some]
    dsimp only
    rw [if_pos ⟨hslash, hread ▸ isNumber_decimal _⟩, hread, intOf_decimal]
  rw [keptTotal, htotal, if_neg (Nat.not_le.mpr hpositive)]

/-- The response is kept as long as the cache is read again. -/
def Kept (cfg : FirstSegmentConfig) (body : Bytes) (putAt readAt : ℚ) : Prop :=
  cfg.isEnabled = true ∧ 0 < cfg.ttlSeconds ∧ body ≠ [] ∧ readAt < putAt + cfg.ttlSeconds

variable {entries : Entries} {cacheKey : Text} {putAt readAt : ℚ}

theorem segmentSize_pos (h : cfg.isEnabled = true) : 0 < cfg.segmentSizeBytes := by
  rw [FirstSegmentConfig.isEnabled, Bool.and_eq_true, decide_eq_true_iff] at h
  exact h.2

theorem collect_body (response : UpstreamResponse) :
    collect segmentSize response.chunks [] = response.body.take segmentSize :=
  collect_eq (Nat.zero_le _)

theorem getEntry_of_enabled (h : cfg.isEnabled = true) (now : ℚ) :
    getEntry cfg entries cacheKey now =
      (pruneExpired entries now cacheKey, pruneExpired entries now) := by
  rw [getEntry, if_neg (by simp [h])]

/-- What is put into the cache, before the time of its expiry is set. -/
def primedEntry (segmentSize : ℕ) (response : UpstreamResponse) : FirstSegmentCacheEntry where
  data := response.body.take segmentSize
  totalLength := keptTotal segmentSize response
  contentType := (response.headers.lookup "Content-Type".toList).getD
    "application/octet-stream".toList
  acceptRanges := (response.headers.lookup "Accept-Ranges".toList).getD "bytes".toList
  etag := response.headers.lookup "ETag".toList
  lastModified := response.headers.lookup "Last-Modified".toList
  expiresAt := 0

theorem prime_eq (henabled : cfg.isEnabled = true)
    (hstatus : response.status = 200 ∨ response.status = 206) (hbody : response.body ≠ []) :
    primeFirstSegmentCache cfg entries cacheKey response putAt readAt =
      getEntry cfg (putEntry cfg entries cacheKey (primedEntry cfg.segmentSizeBytes response) putAt)
        cacheKey readAt := by
  have hsize := segmentSize_pos henabled
  have hready : ¬(cfg.isEnabled = false ∨ cfg.segmentSizeBytes ≤ 0) := by
    rw [henabled]
    simp
    omega
  have hknown : ¬ response.status ∉ [200, 206] := by
    rw [not_not, List.mem_cons, List.mem_singleton]
    exact hstatus
  have hcollected : ¬ response.body.take cfg.segmentSizeBytes = [] := by
    rw [List.take_eq_nil_iff, not_or]
    exact ⟨hsize.ne', hbody⟩
  rw [primeFirstSegmentCache, if_neg hready, if_neg hknown, collect_body]
  dsimp only
  rw [if_neg hcollected]
  rfl

/-- What priming leaves in the cache. -/
theorem prime_entry (entries : Entries) (cacheKey : Text)
    (hstatus : response.status = 200 ∨ response.status = 206)
    (hkept : Kept cfg response.body putAt readAt) :
    ∃ entry, (primeFirstSegmentCache cfg entries cacheKey response putAt readAt).2 cacheKey =
        some entry ∧ entry.data = response.body.take cfg.segmentSizeBytes ∧
      entry.totalLength = keptTotal cfg.segmentSizeBytes response := by
  obtain ⟨henabled, httl, hbody, htime⟩ := hkept
  have hput : ¬(cfg.ttlSeconds ≤ 0 ∨ (primedEntry cfg.segmentSizeBytes response).data = []) := by
    rw [primedEntry, List.take_eq_nil_iff]
    have hsize := segmentSize_pos henabled
    rintro (h | h | h)
    · omega
    · omega
    · exact hbody h
  rw [prime_eq henabled hstatus hbody, getEntry_of_enabled henabled, putEntry, if_neg (by simp [henabled]),
    if_neg hput]
  dsimp only [pruneExpired]
  rw [Function.update_self, Option.filter_some, if_pos (decide_eq_true htime)]
  exact ⟨_, rfl, rfl, rfl⟩

/-- Priming leaves nothing where it keeps nothing. -/
theorem prime_none (hstatus : response.status = 200 ∨ response.status = 206)
    (hfree : entries cacheKey = none) (hkept : ¬ Kept cfg response.body putAt readAt) :
    (primeFirstSegmentCache cfg entries cacheKey response putAt readAt).2 cacheKey = none := by
  by_cases henabled : cfg.isEnabled = true
  · by_cases hbody : response.body = []
    · rw [primeFirstSegmentCache, collect_body, hbody, List.take_nil]
      dsimp only
      rw [if_pos rfl]
      split_ifs <;> exact hfree
    · rw [prime_eq henabled hstatus hbody, getEntry_of_enabled henabled, putEntry,
        if_neg (by simp [henabled])]
      split_ifs with hput
      · dsimp only [pruneExpired]
        rw [hfree, Option.filter_none]
      · rw [not_or] at hput
        have hlate : ¬ readAt < putAt + cfg.ttlSeconds :=
          fun htime => hkept ⟨henabled, Nat.pos_of_ne_zero (by omega), hbody, htime⟩
        dsimp only [pruneExpired]
        rw [Function.update_self, Option.filter_some, if_neg (by simpa using hlate)]
  · rw [primeFirstSegmentCache, if_pos (.inl (Bool.eq_false_iff.mpr henabled))]
    exact hfree

end Priming

section Serving
variable {object : Bytes} {cfg : FirstSegmentConfig} {response : UpstreamResponse}
  {entry : FirstSegmentCacheEntry} {last : ℕ} {entries : Entries} {cacheKey : Text} {putAt readAt : ℚ}

theorem contentRangeText_injective {start last total total' : ℕ}
    (h : contentRangeText start last total = contentRangeText start last total') : total = total' := by
  have htail := List.cons.inj (List.append_cancel_left h)
  rw [← intOf_decimal 0 total, htail.2, intOf_decimal]

/-- An entry is served faithfully if its total is right. -/
theorem faithful_iff {count : ℕ} (hdata : entry.data = object.take count)
    (hlast : last < entry.data.length) :
    Faithful object last (buildCachedFirstSegmentResponse entry 0 last) ↔
      entry.totalLength = object.length := by
  have hlength := hlast
  rw [hdata, List.length_take] at hlength
  have hmin : min last (object.length - 1) = last := by omega
  have hrange : (buildCachedFirstSegmentResponse entry 0 last).headers.lookup "Content-Range".toList =
      some (contentRangeText 0 last entry.totalLength) := rfl
  constructor
  · intro h
    have htext := h.range
    rw [hrange, hmin] at htext
    exact contentRangeText_injective (Option.some.inj htext)
  · intro htotal
    constructor
    · rw [hmin, buildCachedFirstSegmentResponse, hdata]
      dsimp only
      rw [List.drop_zero, List.take_take]
      congr 1
      omega
    · rw [hrange, hmin, htotal]
    · rfl

theorem Legal.status (h : Legal object cfg.segmentSizeBytes response) :
    response.status = 200 ∨ response.status = 206 := by
  rcases h with hwhole | ⟨count, total, hpart⟩
  · exact .inl hwhole.status
  · exact .inr hpart.status

theorem Legal.body_eq_take (h : Legal object cfg.segmentSizeBytes response) :
    ∃ count, response.body = object.take count := by
  rcases h with hwhole | ⟨count, total, hpart⟩
  · exact ⟨object.length, hwhole.body.trans List.take_length.symm⟩
  · exact ⟨count, hpart.body⟩

theorem decimal_getLast_ne (n : ℕ) : (decimal 0 n).getLast? ≠ some '*' := by
  intro h
  have hdigit := isDigit_of_mem_decimal (List.mem_of_getLast? h)
  exact absurd hdigit (by decide)

theorem IsWhole.determined (h : IsWhole object response) : Determined response := by
  intro value hvalue
  rw [h.range] at hvalue
  cases hvalue

theorem IsPart.determined_iff {segmentSize count : ℕ} {total : Option ℕ}
    (h : IsPart object segmentSize response count total) :
    Determined response ↔ total = some object.length := by
  obtain ⟨before, hbefore⟩ := partRange_eq count total
  rw [Determined, h.range, List.forall_mem_singleton, hbefore, List.getLast?_append,
    List.getLast?_cons]
  rcases h.stated with rfl | rfl
  · refine iff_of_true ?_ rfl
    obtain ⟨c, hc⟩ := Option.ne_none_iff_exists'.mp
      (mt List.getLast?_eq_none_iff.mp (decimal_ne_nil 0 object.length))
    rw [Option.elim_some, hc, Option.some_or]
    exact hc ▸ decimal_getLast_ne object.length
  · refine iff_of_false ?_ (by simp)
    rw [Option.elim_none]
    simp

/-- When the total that is kept is right. -/
theorem Legal.totalFound_iff (h : Legal object cfg.segmentSizeBytes response)
    (hbody : response.body ≠ []) :
    TotalFound object cfg.segmentSizeBytes response ↔
      Determined response ∧ keptTotal cfg.segmentSizeBytes response = object.length := by
  rcases h with hwhole | ⟨count, total, hpart⟩
  · have hne : object ≠ [] := hwhole.body ▸ hbody
    rw [TotalFound, hwhole.status, hwhole.keptTotal_eq hne]
    simp [hwhole.determined]
  · have hlength : response.body.length = count := by
      rw [hpart.body, List.length_take, min_eq_left hpart.inside]
    rw [TotalFound, hpart.status, hlength]
    simp only [Nat.reduceEqDiff, false_and, true_and, false_or]
    refine and_congr_right fun hdetermined => ?_
    obtain rfl := hpart.determined_iff.mp hdetermined
    by_cases hspelled : (response.headers.lookup "Content-Range".toList).isSome = true
    · exact iff_of_true (.inl hspelled) (hpart.keptTotal_of_stated hspelled)
    · rw [hpart.keptTotal_of_unstated (.inl (Option.not_isSome_iff_eq_none.mp hspelled)), or_iff_right hspelled]

/-- A request for the first bytes that does not find them in the cache. -/
structure IsPriming (cfg : FirstSegmentConfig) (entries : Entries) (request : StreamRequest) (last : ℕ) :
    Prop where
  method : request.method.map Char.toUpper = "GET".toList
  range : isFirstSegmentCacheableRange cfg request.rangeHeader = some (0, last)
  absent : (getEntry cfg entries request.cacheKey request.askedAt).1 = none

/-- All that is answered from the entry under a key is what the origin would answer. -/
def ServesAsOrigin (cfg : FirstSegmentConfig) (object : Bytes) (cacheKey : Text) (entries : Entries) :
    Prop :=
  ∀ request last answer, request.cacheKey = cacheKey →
    isFirstSegmentCacheableRange cfg request.rangeHeader = some (0, last) →
    (getEntry cfg entries cacheKey request.askedAt).1 ≠ none →
    (proxyStreamByFileId cfg entries request).1 = some answer → Faithful object last answer

/-- What should hold of a priming request: its answer, and all that are later built from what it leaves
in the cache, are those of the origin; nothing is left where the total is not determined. -/
structure PrimesWell (cfg : FirstSegmentConfig) (object : Bytes) (entries : Entries)
    (request : StreamRequest) (last : ℕ) : Prop where
  answered : ∀ answer, (proxyStreamByFileId cfg entries request).1 = some answer →
    Faithful object last answer
  later : ServesAsOrigin cfg object request.cacheKey (proxyStreamByFileId cfg entries request).2
  cached : ∀ now,
    (getEntry cfg (proxyStreamByFileId cfg entries request).2 request.cacheKey now).1 ≠ none →
    Determined request.response

theorem prime_fst (hfree : entries cacheKey = none) :
    (primeFirstSegmentCache cfg entries cacheKey response putAt readAt).1 =
      (primeFirstSegmentCache cfg entries cacheKey response putAt readAt).2 cacheKey := by
  by_cases henabled : cfg.isEnabled = true
  · have hget : ∀ (entries : Entries) (now : ℚ),
        (getEntry cfg entries cacheKey now).1 = (getEntry cfg entries cacheKey now).2 cacheKey := by
      intro entries now
      rw [getEntry_of_enabled henabled]
    rw [primeFirstSegmentCache]
    dsimp only
    split_ifs <;> first | exact hfree.symm | exact hget _ _
  · rw [primeFirstSegmentCache, if_pos (.inl (Bool.eq_false_iff.mpr henabled))]
    exact hfree.symm

variable {request : StreamRequest} {answer : Response}

/-- The answer to a priming request, and what it leaves. -/
theorem IsPriming.proxyStream_eq (h : IsPriming cfg entries request last)
    (henabled : cfg.isEnabled = true) :
    let primed := primeFirstSegmentCache cfg (pruneExpired entries request.askedAt) request.cacheKey
      request.response request.putAt request.readAt
    (proxyStreamByFileId cfg entries request).2 = primed.2 ∧
      (proxyStreamByFileId cfg entries request).1 =
        (primed.2 request.cacheKey).bind fun entry =>
          if last < entry.data.length then some (buildCachedFirstSegmentResponse entry 0 last)
          else none := by
  intro primed
  have hget : getEntry cfg entries request.cacheKey request.askedAt =
      (pruneExpired entries request.askedAt request.cacheKey, pruneExpired entries request.askedAt) :=
    getEntry_of_enabled henabled request.askedAt
  have hfree : pruneExpired entries request.askedAt request.cacheKey = none := by
    have habsent := h.absent
    rwa [hget] at habsent
  have hcached : primed.1 = primed.2 request.cacheKey := prime_fst hfree
  rw [proxyStreamByFileId, if_neg (not_not.mpr h.method), h.range]
  dsimp only
  rw [if_neg (by simp [henabled]), hget, hfree]
  dsimp only
  cases hprimed : primeFirstSegmentCache cfg (pruneExpired entries request.askedAt)
      request.cacheKey request.response request.putAt request.readAt with
  | mk cached after =>
      have hpair : primed = (cached, after) := hprimed
      rw [hpair] at hcached ⊢
      rw [← hcached]
      cases cached with
      | none => exact ⟨rfl, rfl⟩
      | some entry =>
          dsimp only [Option.bind_some]
          split_ifs
          · exact ⟨rfl, rfl⟩
          · exact ⟨rfl, rfl⟩

/-- A request that finds an entry is answered from it. -/
theorem proxyStream_of_hit (henabled : cfg.isEnabled = true)
    (hrange : isFirstSegmentCacheableRange cfg request.rangeHeader = some (0, last))
    (hmethod : request.method.map Char.toUpper = "GET".toList)
    (hfound : pruneExpired entries request.askedAt request.cacheKey = some entry) :
    (proxyStreamByFileId cfg entries request).1 =
      if last < entry.data.length then some (buildCachedFirstSegmentResponse entry 0 last)
      else none := by
  rw [proxyStreamByFileId, if_neg (not_not.mpr hmethod), hrange]
  dsimp only
  rw [if_neg (by simp [henabled]), getEntry_of_enabled henabled, hfound]
  dsimp only
  split_ifs <;> rfl

theorem method_of_answer (h : (proxyStreamByFileId cfg entries request).1 = some answer) :
    request.method.map Char.toUpper = "GET".toList := by
  by_contra hmethod
  rw [proxyStreamByFileId, if_pos hmethod] at h
  cases h

/-- All that is answered from a segment with the right total is right. -/
theorem servesAsOrigin_of_total {count : ℕ} (hentry : entries cacheKey = some entry)
    (henabled : cfg.isEnabled = true) (hdata : entry.data = object.take count)
    (htotal : entry.totalLength = object.length) : ServesAsOrigin cfg object cacheKey entries := by
  rintro request last answer rfl hrange hlive hanswer
  have hmethod := method_of_answer hanswer
  have hfound : pruneExpired entries request.askedAt request.cacheKey = some entry := by
    rw [getEntry_of_enabled henabled] at hlive
    dsimp only [pruneExpired] at hlive ⊢
    rw [hentry, Option.filter_some] at hlive ⊢
    split_ifs at hlive ⊢ with htime
    · rfl
    · exact absurd rfl hlive
  rw [proxyStream_of_hit henabled hrange hmethod hfound] at hanswer
  split_ifs at hanswer with hlast
  obtain rfl := Option.some.inj hanswer
  exact (faithful_iff hdata hlast).mpr htotal

theorem firstByte_cacheable (h : cfg.isEnabled = true) :
    isFirstSegmentCacheableRange cfg (some "bytes=0-0".toList) = some (0, 0) := by
  have hsize := segmentSize_pos h
  have hparse : parseBoundedRangeHeader (some "bytes=0-0".toList) = some (0, 0) := by decide
  rw [isFirstSegmentCacheableRange, hparse]
  change (if (0 : ℕ) ≠ 0 then none
    else if cfg.segmentSizeBytes ≤ 0 ∨ cfg.segmentSizeBytes ≤ 0 then none else some (0, 0)) = _
  rw [if_neg (by simp), if_neg (by omega)]

/-- If all that is answered from a segment is right, then its total is. -/
theorem total_of_servesAsOrigin {count : ℕ} (h : ServesAsOrigin cfg object cacheKey entries)
    (hentry : entries cacheKey = some entry) (henabled : cfg.isEnabled = true)
    (hdata : entry.data = object.take count) (hpositive : 0 < entry.data.length) :
    entry.totalLength = object.length := by
  let request : StreamRequest :=
    { cacheKey, method := "GET".toList, rangeHeader := some "bytes=0-0".toList
      response := ⟨0, [], []⟩, askedAt := entry.expiresAt - 1, putAt := 0, readAt := 0 }
  have hfound : pruneExpired entries request.askedAt request.cacheKey = some entry := by
    dsimp only [pruneExpired, request]
    rw [hentry, Option.filter_some, if_pos (by simp)]
  have hget : request.method.map Char.toUpper = "GET".toList := rfl
  have hlive : (getEntry cfg entries cacheKey request.askedAt).1 ≠ none := by
    rw [getEntry_of_enabled henabled]
    exact fun hnone => Option.some_ne_none entry (hfound.symm.trans hnone)
  have hanswer := proxyStream_of_hit henabled (firstByte_cacheable henabled) hget hfound
  rw [if_pos hpositive] at hanswer
  exact (faithful_iff hdata hpositive).mp
    (h request 0 _ rfl (firstByte_cacheable henabled) hlive hanswer)

/-- Where nothing is left, nothing is wrong. -/
theorem primesWell_of_none (hanswer : (proxyStreamByFileId cfg entries request).1 = none)
    (hleft : ∀ now,
      (getEntry cfg (proxyStreamByFileId cfg entries request).2 request.cacheKey now).1 = none) :
    PrimesWell cfg object entries request last where
  answered answer hsome := by
    rw [hanswer] at hsome
    cases hsome
  later later last answer _ _ hlive := absurd (hleft _) hlive
  cached now hlive := absurd (hleft now) hlive

/-- Where an entry is left, its total decides. -/
theorem IsPriming.primesWell_iff_of_entry {count : ℕ} (h : IsPriming cfg entries request last)
    (henabled : cfg.isEnabled = true)
    (hentry : (proxyStreamByFileId cfg entries request).2 request.cacheKey = some entry)
    (hdata : entry.data = object.take count) (hpositive : 0 < entry.data.length) :
    PrimesWell cfg object entries request last ↔
      Determined request.response ∧ entry.totalLength = object.length := by
  obtain ⟨hafter, hanswer⟩ := h.proxyStream_eq henabled
  rw [← hafter, hentry, Option.bind_some] at hanswer
  constructor
  · intro hwell
    refine ⟨hwell.cached (entry.expiresAt - 1) ?_,
      total_of_servesAsOrigin hwell.later hentry henabled hdata hpositive⟩
    rw [getEntry_of_enabled henabled]
    dsimp only [pruneExpired]
    rw [hentry, Option.filter_some, if_pos (by simp)]
    exact Option.some_ne_none entry
  · rintro ⟨hdetermined, htotal⟩
    refine ⟨?_, servesAsOrigin_of_total hentry henabled hdata htotal, fun _ _ => hdetermined⟩
    intro answer hsome
    rw [hanswer] at hsome
    split_ifs at hsome with hlast
    obtain rfl := Option.some.inj hsome
    exact (faithful_iff hdata hlast).mpr htotal

/-- A priming request with a legal response is served as the origin would exactly if nothing is kept, or
the total is spelled in the usual way, or all bytes are sent. -/
theorem primesWell_iff (h : Legal object cfg.segmentSizeBytes request.response)
    (hpriming : IsPriming cfg entries request last) :
    PrimesWell cfg object entries request last ↔
      (Kept cfg request.response.body request.putAt request.readAt →
        TotalFound object cfg.segmentSizeBytes request.response) := by
  by_cases henabled : cfg.isEnabled = true
  · obtain ⟨hafter, hanswer⟩ := hpriming.proxyStream_eq henabled
    have hfree : pruneExpired entries request.askedAt request.cacheKey = none := by
      have habsent := hpriming.absent
      rwa [getEntry_of_enabled henabled] at habsent
    by_cases hkept : Kept cfg request.response.body request.putAt request.readAt
    · obtain ⟨entry, hentry, hdata, htotal⟩ :=
        prime_entry (pruneExpired entries request.askedAt) request.cacheKey h.status hkept
      obtain ⟨count, hcount⟩ := h.body_eq_take
      have hsegment : entry.data = object.take (min cfg.segmentSizeBytes count) := by
        rw [hdata, hcount, List.take_take]
      have hpositive : 0 < entry.data.length := by
        rw [hdata, List.length_take]
        exact Nat.lt_min.mpr ⟨segmentSize_pos henabled, List.length_pos_of_ne_nil hkept.2.2.1⟩
      rw [hpriming.primesWell_iff_of_entry henabled (hafter ▸ hentry) hsegment hpositive, htotal,
        imp_iff_right hkept, h.totalFound_iff hkept.2.2.1]
    · have hleft := prime_none h.status hfree hkept
      refine iff_of_true (primesWell_of_none ?_ ?_) fun h => absurd h hkept
      · rw [hanswer, hleft, Option.bind_none]
      · intro now
        rw [hafter, getEntry_of_enabled henabled]
        dsimp only [pruneExpired]
        rw [hleft, Option.filter_none]
  · have hdisabled : cfg.isEnabled = false := Bool.eq_false_iff.mpr henabled
    refine iff_of_true (primesWell_of_none ?_ ?_) fun hkept => absurd hkept.1 henabled
    · rw [proxyStreamByFileId, if_neg (not_not.mpr hpriming.method), hpriming.range]
      dsimp only
      rw [if_pos hdisabled]
    · intro now
      rw [getEntry, if_pos hdisabled]

end Serving

section Examples

def oneMegabyte : FirstSegmentConfig where
  firstSegmentCacheEnabled := true
  firstSegmentCacheMb := 1
  firstSegmentCacheTtlSec := 60

theorem oneMegabyte_enabled : oneMegabyte.isEnabled = true := by
  rw [FirstSegmentConfig.isEnabled, Bool.and_eq_true, decide_eq_true_iff]
  exact ⟨rfl, Nat.mul_pos (Nat.mul_pos Nat.one_pos (by decide)) (by decide)⟩

/-- The first of two bytes is asked for and sent. -/
def firstOfTwo (total : Option ℕ) : StreamRequest where
  cacheKey := "download:1".toList
  method := "GET".toList
  rangeHeader := some "bytes=0-0".toList
  response := ⟨206, [("Content-Range".toList, partRange 1 total)], [[7]]⟩
  askedAt := 0
  putAt := 0
  readAt := 0

theorem firstOfTwo_isPart {total : Option ℕ} (h : total = some 2 ∨ total = none) :
    IsPart [7, 8] oneMegabyte.segmentSizeBytes (firstOfTwo total).response 1 total := by
  constructor
  · rfl
  · exact le_rfl
  · exact segmentSize_pos oneMegabyte_enabled
  · rfl
  · decide
  · exact h
  · rfl
  · exact .inl rfl

theorem firstOfTwo_isPriming (total : Option ℕ) :
    IsPriming oneMegabyte (fun _ => none) (firstOfTwo total) 0 := by
  constructor
  · rfl
  · exact firstByte_cacheable oneMegabyte_enabled
  · rfl

theorem primesWell_two : PrimesWell oneMegabyte [7, 8] (fun _ => none) (firstOfTwo (some 2)) 0 := by
  have hpart := firstOfTwo_isPart (.inl rfl)
  exact (primesWell_iff (.inr ⟨1, some 2, hpart⟩) (firstOfTwo_isPriming (some 2))).mpr fun _ =>
    .inr ⟨rfl, hpart.determined_iff.mpr rfl, .inl rfl⟩

/-- A part of an object of unknown length is kept, and served as the whole. -/
theorem star_kept :
    Legal [7, 8] oneMegabyte.segmentSizeBytes (firstOfTwo none).response ∧
      IsPriming oneMegabyte (fun _ => none) (firstOfTwo none) 0 ∧
      (proxyStreamByFileId oneMegabyte (fun _ => none) (firstOfTwo none)).1.bind
        (·.headers.lookup "Content-Range".toList) = some "bytes 0-0/1".toList ∧
      ¬ PrimesWell oneMegabyte [7, 8] (fun _ => none) (firstOfTwo none) 0 := by
  have hpart := firstOfTwo_isPart (.inr rfl)
  have hpriming := firstOfTwo_isPriming none
  obtain ⟨hafter, hanswer⟩ := hpriming.proxyStream_eq oneMegabyte_enabled
  have hkept : Kept oneMegabyte (firstOfTwo none).response.body 0 0 :=
    ⟨oneMegabyte_enabled, by decide, by decide, by simp [FirstSegmentConfig.ttlSeconds, oneMegabyte]⟩
  obtain ⟨entry, hentry, hdata, htotal⟩ :=
    prime_entry (pruneExpired (fun _ => none) 0) "download:1".toList (.inr rfl) hkept
  have hone : entry.totalLength = 1 := htotal.trans (hpart.keptTotal_of_unstated (.inr rfl))
  have hpositive : 0 < entry.data.length := by
    rw [hdata, List.length_take]
    exact Nat.lt_min.mpr ⟨segmentSize_pos oneMegabyte_enabled, by decide⟩
  have hsegment : entry.data = List.take (min oneMegabyte.segmentSizeBytes 1) [7, 8] := by
    rw [hdata, hpart.body, List.take_take]
  have hleft : (proxyStreamByFileId oneMegabyte (fun _ => none) (firstOfTwo none)).2
      (firstOfTwo none).cacheKey = some entry :=
    hafter ▸ hentry
  rw [← hafter, hleft, Option.bind_some, if_pos hpositive] at hanswer
  refine ⟨.inr ⟨1, none, hpart⟩, hpriming, ?_, ?_⟩
  · rw [hanswer, Option.bind_some]
    change some (contentRangeText 0 0 entry.totalLength) = _
    rw [hone]
    decide
  · rw [hpriming.primesWell_iff_of_entry oneMegabyte_enabled hleft hsegment hpositive]
    intro h
    cases hpart.determined_iff.mp h.1

end Examples

end SmartMedia.Playback
