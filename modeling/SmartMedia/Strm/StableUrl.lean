import SmartMedia.Strm.ProxyUrl

/-!
# Reading a stable media URL back

A stable URL carries the media id and the percent-encoded display name in its path. Neither
has a character that `urlparse` or the pattern stops at, so that both come back unchanged,
whatever query is appended.
-/
namespace SmartMedia.Strm
open PercentEncoding Media

section MediaId

/-- The lower case hexadecimal digits of some octets. -/
def hexText (bytes : List UInt8) : Text :=
  bytes.flatMap fun b => [Nat.digitChar (b.toNat / 16), Nat.digitChar (b.toNat % 16)]

/-- `uuid.NAMESPACE_URL.bytes`. -/
def namespaceUrl : List UInt8 :=
  [0x6b, 0xa7, 0xb8, 0x11, 0x9d, 0xad, 0x11, 0xd1, 0x80, 0xb4, 0x00, 0xc0, 0x4f, 0xd4, 0x30, 0xc8]

/-- `UUID(bytes=..., version=5).bytes`: the version and the variant are written over the hash. -/
def versioned (hash : List UInt8) : List UInt8 :=
  (hash.modify 6 fun b => (b &&& 0x0f) ||| 0x50).modify 8 fun b => (b &&& 0x3f) ||| 0x80

/-- `str(UUID)`. -/
def uuidText (bytes : List UInt8) : Text :=
  let hex := hexText bytes
  hex.take 8 ++ '-' :: ((hex.drop 8).take 4 ++ '-' :: ((hex.drop 12).take 4 ++ '-' ::
    ((hex.drop 16).take 4 ++ '-' :: hex.drop 20)))

/-- `str(uuid5(NAMESPACE_URL, name))`; the digest of `hashlib.sha1` is given. -/
def uuid5 (sha1 : List UInt8 → Vector UInt8 20) (name : Text) : Text :=
  uuidText (versioned ((sha1 (namespaceUrl ++ name.flatMap String.utf8EncodeChar)).toList.take 16))

/-- `build_media_id`; an empty provider file id counts as none. -/
def buildMediaId (sha1 : List UInt8 → Vector UInt8 20) (backendId : Text)
    (providerFileId : Option Text) (sourcePath : Text) : Text :=
  let key := match providerFileId with
    | some fileId => if fileId = [] then sourcePath else fileId
    | none => sourcePath
  uuid5 sha1 (backendId ++ ':' :: key)

theorem digitChar_isIdChar {n : ℕ} (h : n < 16) : isIdChar (Nat.digitChar n) = true := by
  interval_cases n <;> rfl

theorem hexText_isIdChar {bytes : List UInt8} {c : Char} (hc : c ∈ hexText bytes) :
    isIdChar c = true := by
  obtain ⟨b, -, hdigits⟩ := List.mem_flatMap.mp hc
  have hb : b.toNat < 256 := UInt8.toNat_lt_size b
  simp only [List.mem_cons, List.not_mem_nil, or_false] at hdigits
  rcases hdigits with rfl | rfl
  · exact digitChar_isIdChar (by omega)
  · exact digitChar_isIdChar (by omega)

theorem uuidText_isIdChar {bytes : List UInt8} {c : Char} (hc : c ∈ uuidText bytes) :
    isIdChar c = true := by
  simp only [uuidText, List.mem_append, List.mem_cons] at hc
  rcases hc with hc | rfl | hc | rfl | hc | rfl | hc | rfl | hc
  · exact hexText_isIdChar (List.mem_of_mem_take hc)
  · rfl
  · exact hexText_isIdChar (List.mem_of_mem_drop (List.mem_of_mem_take hc))
  · rfl
  · exact hexText_isIdChar (List.mem_of_mem_drop (List.mem_of_mem_take hc))
  · rfl
  · exact hexText_isIdChar (List.mem_of_mem_drop (List.mem_of_mem_take hc))
  · rfl
  · exact hexText_isIdChar (List.mem_of_mem_drop hc)

theorem uuidText_ne_nil (bytes : List UInt8) : uuidText bytes ≠ [] :=
  List.append_ne_nil_of_right_ne_nil _ (List.cons_ne_nil _ _)

end MediaId

section UrlParse
variable {delimiters : List Char} {front rest path query : Text}

theorem takeWhile_not_mem (hfront : ∀ c ∈ front, c ∉ delimiters) :
    (front ++ rest).takeWhile (· ∉ delimiters) = front ++ rest.takeWhile (· ∉ delimiters) :=
  List.takeWhile_append_of_pos fun c hc => decide_eq_true (hfront c hc)

theorem cutAt_append (hfront : ∀ c ∈ front, c ∉ delimiters)
    (hrest : ∀ c ∈ rest.head?, c ∈ delimiters) : cutAt delimiters (front ++ rest) = (front, rest) := by
  have hcut : (front ++ rest).takeWhile (· ∉ delimiters) = front := by
    apply takeWhile_append_of_head
    · exact List.all_eq_true.mpr fun c hc => decide_eq_true (hfront c hc)
    · exact fun c hc => decide_eq_false (not_not_intro (hrest c hc))
  rw [cutAt, hcut, List.drop_left]

/-- Without a semicolon there are no parameters. -/
theorem splitParams_fst (h : ∀ c ∈ path, c ≠ ';') : (splitParams path).1 = path := by
  set last := (path.reverse.takeWhile (· ≠ '/')).reverse with hlast
  set dir := (path.reverse.dropWhile (· ≠ '/')).reverse with hdir
  have hsplit : path = dir ++ last := by
    rw [hlast, hdir, ← List.reverse_append, List.takeWhile_append_dropWhile, List.reverse_reverse]
  have hcut : cutAt [';'] last = (last, []) := by
    have hnone : ∀ c ∈ last, c ∉ [';'] := by
      intro c hc hmem
      exact h c (hsplit ▸ List.mem_append_right dir hc) (List.mem_singleton.mp hmem)
    have hall : cutAt [';'] (last ++ []) = (last, []) := cutAt_append hnone nofun
    rwa [List.append_nil] at hall
  have hlength : path.length - last.length = dir.length := by
    have := congrArg List.length hsplit
    rw [List.length_append] at this
    omega
  change path.take (path.length - last.length) ++ (cutAt [';'] last).1 = path
  rw [hcut, hlength, hsplit, List.take_left]

/-- A path that `urlparse` returns as it stands. -/
structure PlainPath (path : Text) : Prop where
  rooted : path.head? = some '/'
  plain : ∀ c ∈ path, c ∉ ['?', '#', ';'] ∧ isControlOrSpace c = false

theorem not_isUnsafe {c : Char} (h : isControlOrSpace c = false) : (!isUnsafe c) = true := by
  rw [Bool.not_eq_true']
  by_contra hunsafe
  rw [Bool.not_eq_false, isUnsafe, decide_eq_true_iff] at hunsafe
  simp only [List.mem_cons, List.not_mem_nil, or_false] at hunsafe
  rcases hunsafe with rfl | rfl | rfl <;> exact absurd h (by decide)

theorem isControlOrSpace_of_isLetter {c : Char} (h : isLetter c = true) :
    isControlOrSpace c = false := by
  have hrange := toNat_of_isAlphanumeric (isAlphanumeric_of_isLetter h)
  rw [isControlOrSpace]
  exact decide_eq_false (by omega)

theorem BaseUrl.origin_plain (base : BaseUrl) {c : Char} (hc : c ∈ base.origin) :
    isControlOrSpace c = false := by
  simp only [BaseUrl.origin, List.mem_append, List.mem_cons] at hc
  rcases hc with hc | rfl | rfl | rfl | hc
  · exact isControlOrSpace_of_isLetter (base.scheme_isLetter hc)
  · decide
  · decide
  · decide
  · exact (base.netloc_chars c hc).2

theorem head_filter_query (hquery : query = [] ∨ query.head? = some '?') :
    ∀ c ∈ (query.filter (!isUnsafe ·)).head?, c = '?' := by
  intro c hc
  rcases hquery with rfl | hquery
  · exact nomatch hc
  · obtain ⟨rest, rfl⟩ := List.head?_eq_some_iff.mp hquery
    exact (Option.some.inj hc).symm

theorem splitScheme_origin (base : BaseUrl) (rest : Text) :
    splitScheme (base.origin ++ rest) =
      (base.scheme.map Char.toLower, '/' :: '/' :: (base.netloc ++ rest)) := by
  obtain ⟨first, name, hscheme⟩ := List.exists_cons_of_ne_nil base.scheme_ne_nil
  have hletters : ∀ c ∈ first :: name, isLetter c = true := fun c hc =>
    base.scheme_isLetter (hscheme ▸ hc)
  have hcut : cutAt [':'] (base.origin ++ rest) =
      (first :: name, ':' :: '/' :: '/' :: (base.netloc ++ rest)) := by
    rw [BaseUrl.origin, hscheme, List.append_assoc]
    apply cutAt_append
    · intro c hc hmem
      rw [List.mem_singleton.mp hmem] at hc
      exact absurd (hletters ':' hc) (by decide)
    · intro c hc
      exact List.mem_singleton.mpr (Option.some.inj hc).symm
  have hname : name.all isSchemeChar = true := by
    rw [List.all_eq_true]
    intro c hc
    rw [isSchemeChar, Bool.or_eq_true]
    exact .inl (isAlphanumeric_of_isLetter (hletters c (List.mem_cons_of_mem first hc)))
  rw [splitScheme, hcut]
  change (if isLetter first = true ∧ name.all isSchemeChar = true then _ else _) = _
  rw [if_pos ⟨hletters first List.mem_cons_self, hname⟩, hscheme]

/-- Every ASCII host and port passes, unless the host is in brackets. -/
theorem checkNetloc_of_ascii (checks : NetlocChecks) {netloc : Text}
    (hascii : netloc.all isAscii = true) (hopen : '[' ∉ netloc) (hclose : ']' ∉ netloc) :
    checkNetloc checks netloc = .ok () := by
  have hboth : ¬ ('[' ∈ netloc) ≠ (']' ∈ netloc) := by
    rw [eq_false hopen, eq_false hclose]
    exact fun h => h rfl
  have hall : ¬ netloc.all isAscii = false := by
    rw [hascii]
    exact Bool.noConfusion
  rw [checkNetloc, if_neg hboth, if_neg hopen, if_neg hall]
  rfl

/-- `urlparse` gives a plain path back behind any accepted base URL and before any query. -/
theorem urlparse_plain {checks : NetlocChecks} (base : BaseUrl)
    (hchecks : checkNetloc checks base.netloc = .ok ()) (hpath : PlainPath path)
    (hquery : query = [] ∨ query.head? = some '?') :
    ∃ parsed, urlparse checks (base.origin ++ (path ++ query)) = .ok parsed ∧
      parsed.path = path := by
  obtain ⟨first, name, horigin⟩ : ∃ first name, base.origin = first :: name :=
    List.exists_cons_of_ne_nil (List.append_ne_nil_of_right_ne_nil _ (List.cons_ne_nil _ _))
  have hkept : ∀ text : Text, (∀ c ∈ text, isControlOrSpace c = false) →
      text.filter (!isUnsafe ·) = text := fun text htext =>
    List.filter_eq_self.mpr fun c hc => not_isUnsafe (htext c hc)
  set query' := query.filter (!isUnsafe ·) with hquery'
  have hmark : ∀ c ∈ query'.head?, c = '?' := head_filter_query hquery
  have hclean : ((base.origin ++ (path ++ query)).dropWhile isControlOrSpace).filter (!isUnsafe ·) =
      base.origin ++ (path ++ query') := by
    rw [dropWhile_of_head, List.filter_append, List.filter_append, hkept base.origin,
      hkept path fun c hc => (hpath.plain c hc).2]
    · exact fun c hc => base.origin_plain hc
    · intro c hc
      rw [horigin] at hc
      have hfirst : first ∈ base.origin := horigin ▸ List.mem_cons_self
      exact Option.some.inj hc ▸ base.origin_plain hfirst
  have hnetloc : cutAt ['/', '?', '#'] (base.netloc ++ (path ++ query')) =
      (base.netloc, path ++ query') := by
    apply cutAt_append fun c hc => (base.netloc_chars c hc).1
    intro c hc
    rw [List.head?_append, hpath.rooted, Option.some_or] at hc
    exact Option.some.inj hc ▸ List.mem_cons_self
  have hfragment : (cutAt ['#'] (path ++ query')).1 = path ++ query'.takeWhile (· ∉ ['#']) := by
    apply takeWhile_not_mem
    exact fun c hc hmem => (hpath.plain c hc).1 (by simp_all)
  have hcut : cutAt ['?'] (path ++ query'.takeWhile (· ∉ ['#'])) =
      (path, query'.takeWhile (· ∉ ['#'])) := by
    apply cutAt_append
    · exact fun c hc hmem => (hpath.plain c hc).1 (by simp_all)
    · intro c hc
      rw [List.mem_singleton]
      rw [List.head?_takeWhile] at hc
      exact hmark c (Option.mem_filter_iff.mp hc).1
  have hparams : ∀ c ∈ path, c ≠ ';' := by
    rintro c hc rfl
    exact (hpath.plain ';' hc).1 (by decide)
  rw [urlparse]
  simp only [hclean, splitScheme_origin, dropLiteral, if_true, hnetloc, hchecks, hfragment, hcut,
    bind, Except.bind, pure, Except.pure, Except.ok.injEq, exists_eq_left']
  split
  · exact splitParams_fst hparams
  · rfl

end UrlParse

section RoundTrip
variable {mediaId name query : Text}

theorem isIdChar_plain {c : Char} (h : isIdChar c = true) :
    c ∉ ['?', '#', ';', '/'] ∧ isControlOrSpace c = false := by
  rw [isIdChar, Bool.or_eq_true, decide_eq_true_iff] at h
  rcases h with h | h
  · have hrange := toNat_of_isAlphanumeric h
    constructor
    · intro hmem
      simp only [List.mem_cons, List.not_mem_nil, or_false] at hmem
      rcases hmem with rfl | rfl | rfl | rfl <;> exact absurd h (by decide)
    · rw [isControlOrSpace]
      exact decide_eq_false (by omega)
  · simp only [List.mem_cons, List.not_mem_nil, or_false] at h
    rcases h with rfl | rfl | rfl | rfl <;> decide

theorem quoted_plain {c : Char} (h : c ∈ quote isSafe name) :
    c ∉ ['?', '#', ';', '/'] ∧ isControlOrSpace c = false := by
  rcases quote_mem h with rfl | ⟨n, hn, rfl⟩ | ⟨hsafe, -⟩
  · decide
  · interval_cases n <;> decide
  · rw [isSafe, Bool.or_eq_true, decide_eq_true_iff] at hsafe
    rcases hsafe with hsafe | hsafe
    · exact isIdChar_plain (by rw [isIdChar, hsafe, Bool.true_or])
    · simp only [List.mem_cons, List.not_mem_nil, or_false] at hsafe
      rcases hsafe with rfl | rfl | rfl | rfl | rfl | rfl | rfl | rfl <;> decide

def stablePath (mediaId name : Text) : Text :=
  stablePrefix ++ (mediaId ++ '/' :: quote isSafe name)

theorem stablePath_plain (hid : ∀ c ∈ mediaId, isIdChar c = true) :
    PlainPath (stablePath mediaId name) where
  rooted := rfl
  plain := by
    intro c hc
    have hweaken : c ∉ ['?', '#', ';', '/'] ∧ isControlOrSpace c = false →
        c ∉ ['?', '#', ';'] ∧ isControlOrSpace c = false :=
      And.imp_left fun h hmem => h (List.mem_append_left ['/'] hmem)
    rw [stablePath, List.mem_append, List.mem_append, List.mem_cons] at hc
    rcases hc with hc | hc | rfl | hc
    · have hliteral : ∀ d ∈ stablePrefix, d ∉ ['?', '#', ';'] ∧ isControlOrSpace d = false :=
        forall_mem_of_all (by decide)
      exact hliteral c hc
    · exact hweaken (isIdChar_plain (hid c hc))
    · decide
    · exact hweaken (quoted_plain hc)

/-- The path of a stable URL matches from its first character to its last one. -/
theorem matchStable_stablePath (hid : ∀ c ∈ mediaId, isIdChar c = true) (hne : mediaId ≠ [])
    (hname : name ≠ []) :
    matchStable (stablePath mediaId name) = some (mediaId, quote isSafe name) := by
  have hmediaId : (mediaId ++ '/' :: quote isSafe name).takeWhile isIdChar = mediaId :=
    takeWhile_append_of_head (List.all_eq_true.mpr hid) fun c hc => Option.some.inj hc ▸ rfl
  have hquoted : (quote isSafe name).takeWhile (fun c => c ≠ '?' && c ≠ '#') =
      quote isSafe name := by
    rw [List.takeWhile_eq_self_iff]
    intro c hc
    have hplain := (quoted_plain hc).1
    simp only [List.mem_cons, List.not_mem_nil, or_false, not_or] at hplain
    rw [decide_eq_true hplain.1, decide_eq_true hplain.2.1]
    rfl
  have hslash : dropLiteral ['/'] ('/' :: quote isSafe name) = some (quote isSafe name) := rfl
  rw [matchStable, stablePath, dropLiteral_append]
  simp only [Option.bind_eq_bind, Option.bind_some, hmediaId, List.drop_left, hslash, hquoted]
  exact if_neg (not_or.mpr ⟨hne, quote_ne_nil hname⟩)

theorem searchStable_buildStableMediaUrl {checks : NetlocChecks} (base : BaseUrl)
    (hchecks : checkNetloc checks base.netloc = .ok ()) (hid : ∀ c ∈ mediaId, isIdChar c = true)
    (hne : mediaId ≠ []) (hname : name ≠ []) (hquery : query = [] ∨ query.head? = some '?') :
    searchStable checks (buildStableMediaUrl base.text mediaId name ++ query) =
      .ok (some (mediaId, quote isSafe name)) := by
  have hurl : buildStableMediaUrl base.text mediaId name ++ query =
      base.origin ++ (stablePath mediaId name ++ query) := by
    rw [buildStableMediaUrl, base.rstrip_text, List.append_assoc, stablePath]
  obtain ⟨parsed, hparse, hpath⟩ := urlparse_plain base hchecks (stablePath_plain hid) hquery
  have hfound : search matchStable parsed.path = some (mediaId, quote isSafe name) := by
    rw [hpath]
    exact search_of_matchAt (matchStable_stablePath hid hne hname)
  rw [searchStable, hurl, hparse]
  change Except.ok _ = _
  rw [List.findSome?_cons, hfound]

/-- A stable media URL gives its media id and its display name back, with or without a query. -/
theorem stableUrl_roundTrip (sha1 : List UInt8 → Vector UInt8 20) (checks : NetlocChecks)
    (base : BaseUrl) (hchecks : checkNetloc checks base.netloc = .ok ()) (backendId : Text)
    (providerFileId : Option Text) (sourcePath : Text) {name query : Text} (hname : name ≠ [])
    (hquery : query = [] ∨ query.head? = some '?') :
    let mediaId := buildMediaId sha1 backendId providerFileId sourcePath
    let url := buildStableMediaUrl base.text mediaId name ++ query
    extractMediaIdFromUrl checks url = .ok (some mediaId) ∧
      extractDisplayNameFromUrl checks url = .ok (some name) := by
  intro mediaId url
  have hsearch : searchStable checks url = .ok (some (mediaId, quote isSafe name)) :=
    searchStable_buildStableMediaUrl base hchecks (fun c hc => uuidText_isIdChar hc)
      (uuidText_ne_nil _) hname hquery
  constructor
  · rw [extractMediaIdFromUrl, hsearch]
    rfl
  · have hread : unquote (quote isSafe name) = name := unquote_quote rfl name
    rw [extractDisplayNameFromUrl, hsearch]
    exact congrArg (fun text => Except.ok (some text)) hread

/-- The SHA-1 digest of `a:b` in the URL namespace. -/
def digestOfAB : Vector UInt8 20 :=
  #v[0xb4, 0x5a, 0x9d, 0x79, 0xdb, 0x1e, 0x82, 0x6a, 0xdc, 0x11, 0x59, 0x38, 0x09, 0x78, 0x5c, 0xa4,
    0x23, 0xac, 0x55, 0x2a]

/-- A display name of reserved characters, before a query. -/
theorem stableUrl_roundTrip_reserved :
    let mediaId := "b45a9d79-db1e-526a-9c11-593809785ca4".toList
    let name := "a/b?#;%41 é.mkv".toList
    let url := buildStableMediaUrl nasBase.text mediaId name ++ "?Static=true".toList
    extractMediaIdFromUrl ⟨fun _ => none, fun _ => none⟩ url = .ok (some mediaId) ∧
      extractDisplayNameFromUrl ⟨fun _ => none, fun _ => none⟩ url = .ok (some name) := by
  have hmediaId : buildMediaId (fun _ => digestOfAB) "a".toList (some "b".toList) [] =
      "b45a9d79-db1e-526a-9c11-593809785ca4".toList := by
    decide +kernel
  have hchecks : checkNetloc ⟨fun _ => none, fun _ => none⟩ nasBase.netloc = .ok () :=
    checkNetloc_of_ascii _ (by decide) (by decide) (by decide)
  have hname : "a/b?#;%41 é.mkv".toList ≠ [] := by decide
  have hquery : "?Static=true".toList = [] ∨ "?Static=true".toList.head? = some '?' := .inr rfl
  have hboth := stableUrl_roundTrip (fun _ => digestOfAB) ⟨fun _ => none, fun _ => none⟩ nasBase
    hchecks "a".toList (some "b".toList) [] hname hquery
  rw [hmediaId] at hboth
  exact hboth

end RoundTrip

end SmartMedia.Strm
