import Mathlib.Data.List.TakeWhile
import SmartMedia.Strm.StrmUrl

/-!
# Reading a proxy URL back

The pattern cuts a file id at its first character outside `[A-Za-z0-9]`, while
`validate_identifier` also lets `_`, `.`, `:` and `-` pass. A proxy URL gives its file id
back exactly if the id has none of these.
-/
namespace SmartMedia.Strm
open Media

section Searching
variable {α : Type} {matchAt : Text → Option α} {text rest : Text} {result : α}

theorem search_of_matchAt (h : matchAt text = some result) : search matchAt text = some result := by
  cases text with
  | nil => exact h
  | cons c rest => rw [search, h, Option.some_or]

theorem search_of_none {c : Char} (h : matchAt (c :: rest) = none) :
    search matchAt (c :: rest) = search matchAt rest := by
  rw [search, h, Option.none_or]

/-- A match starts at a slash, so that what has none is passed over. -/
theorem search_skip (hslash : ∀ c rest, c ≠ '/' → matchAt (c :: rest) = none) {front : Text}
    (h : ∀ c ∈ front, c ≠ '/') : search matchAt (front ++ rest) = search matchAt rest := by
  induction front with
  | nil => rfl
  | cons c front ih =>
      have hfirst : c ≠ '/' := h c List.mem_cons_self
      rw [List.cons_append, search_of_none (hslash c (front ++ rest) hfirst)]
      exact ih fun d hd => h d (List.mem_cons_of_mem c hd)

/-- Whatever the search finds has matched somewhere. -/
theorem exists_of_search (h : search matchAt text = some result) :
    ∃ suffix, matchAt suffix = some result := by
  induction text with
  | nil => exact ⟨[], h⟩
  | cons c rest ih =>
      rw [search, Option.or_eq_some_iff] at h
      rcases h with h | ⟨-, h⟩
      · exact ⟨c :: rest, h⟩
      · exact ih h

theorem dropLiteral_append (literal rest : Text) :
    dropLiteral literal (literal ++ rest) = some rest := by
  induction literal with
  | nil => rfl
  | cons c literal ih => rw [List.cons_append, dropLiteral, if_pos rfl, ih]

theorem eq_append_of_dropLiteral {literal : Text} (h : dropLiteral literal text = some rest) :
    text = literal ++ rest := by
  induction literal generalizing text with
  | nil => exact Option.some.inj h
  | cons c literal ih =>
      cases text with
      | nil => exact nomatch h
      | cons d text =>
          rw [dropLiteral] at h
          split at h
          · next hcd => rw [hcd, List.cons_append, ← ih h]
          · exact nomatch h

theorem takeWhile_append_of_head {p : Char → Bool} {front : Text} (hfront : front.all p = true)
    (hrest : ∀ c ∈ rest.head?, p c = false) : (front ++ rest).takeWhile p = front := by
  have hstop : rest.takeWhile p = [] := by
    cases rest with
    | nil => rfl
    | cons c rest => rw [List.takeWhile_cons_of_neg (by simp [hrest c rfl])]
  rw [List.takeWhile_append_of_pos (List.all_eq_true.mp hfront), hstop, List.append_nil]

/-- For the characters of a literal: it is the list that is gone through, not the type. -/
theorem forall_mem_of_all {p : Char → Prop} [DecidablePred p]
    (h : text.all (fun c => decide (p c)) = true) : ∀ c ∈ text, p c :=
  fun c hc => of_decide_eq_true (List.all_eq_true.mp h c hc)

theorem dropWhile_of_head {p : Char → Bool} (h : ∀ c ∈ text.head?, p c = false) :
    text.dropWhile p = text := by
  cases text with
  | nil => rfl
  | cons c rest => rw [List.dropWhile_cons_of_neg (by simp [h c rfl])]

end Searching

section Base

theorem isLetter_of_toLower {c : Char} (h : isLetter c.toLower = true) : isLetter c = true := by
  unfold Char.toLower at h
  split at h
  · next hupper =>
      rw [isLetter, Bool.or_eq_true, Bool.and_eq_true, decide_eq_true_iff, decide_eq_true_iff]
      exact .inl ⟨hupper.1, hupper.2⟩
  · exact h

theorem BaseUrl.scheme_isLetter (base : BaseUrl) {c : Char} (hc : c ∈ base.scheme) :
    isLetter c = true := by
  apply isLetter_of_toLower
  have hmem : c.toLower ∈ base.scheme.map Char.toLower := List.mem_map_of_mem hc
  have hhttp := base.isHttp
  simp only [List.mem_cons, List.not_mem_nil, or_false] at hhttp
  have hletters : ∀ d ∈ "http".toList ++ "https".toList, isLetter d = true :=
    forall_mem_of_all (by decide)
  apply hletters
  rw [List.mem_append]
  rcases hhttp with hhttp | hhttp
  · exact .inl (hhttp ▸ hmem)
  · exact .inr (hhttp ▸ hmem)

/-- The scheme and the network location, which the slashes at the end do not belong to. -/
def BaseUrl.origin (base : BaseUrl) : Text := base.scheme ++ (':' :: '/' :: '/' :: base.netloc)

theorem isLetter_ne_slash {c : Char} (h : isLetter c = true) : c ≠ '/' := by
  rintro rfl
  exact absurd h (by decide)

theorem BaseUrl.netloc_ne_slash (base : BaseUrl) {c : Char} (hc : c ∈ base.netloc) : c ≠ '/' := by
  rintro rfl
  exact (base.netloc_chars '/' hc).1 List.mem_cons_self

theorem rstripSlashes_replicate {front : Text} {n : ℕ} (h : ∀ c ∈ front.getLast?, c ≠ '/') :
    rstripSlashes (front ++ List.replicate n '/') = front := by
  have hslashes : ∀ c ∈ List.replicate n '/', decide (c = '/') = true := by
    intro c hc
    rw [List.eq_of_mem_replicate hc]
    rfl
  have hstop : front.reverse.dropWhile (· = '/') = front.reverse := by
    apply dropWhile_of_head
    intro c hc
    rw [List.head?_reverse] at hc
    exact decide_eq_false (h c hc)
  rw [rstripSlashes, List.reverse_append, List.reverse_replicate,
    List.dropWhile_append_of_pos hslashes, hstop, List.reverse_reverse]

theorem BaseUrl.rstrip_text (base : BaseUrl) : rstripSlashes base.text = base.origin := by
  have htext : base.text = base.origin ++ List.replicate base.slashes '/' := by
    simp only [BaseUrl.text, BaseUrl.origin, List.append_assoc, List.cons_append]
  rw [htext, rstripSlashes_replicate]
  intro c hc
  obtain ⟨last, hlast⟩ : ∃ last, base.netloc.getLast? = some last :=
    Option.ne_none_iff_exists'.mp (mt List.getLast?_eq_none_iff.mp base.netloc_ne_nil)
  have horigin : base.origin.getLast? = some last := by
    have hsplit : base.origin = (base.scheme ++ [':', '/', '/']) ++ base.netloc := by
      rw [BaseUrl.origin, List.append_assoc]
      rfl
    rw [hsplit, List.getLast?_append, hlast, Option.some_or]
  rw [horigin, Option.mem_some_iff] at hc
  exact hc ▸ base.netloc_ne_slash (List.mem_of_getLast? hlast)

end Base

section Proxy

theorem matchProxy_of_ne_slash (c : Char) (rest : Text) (h : c ≠ '/') :
    matchProxy (c :: rest) = none := by
  have hdrop : dropLiteral proxyPrefix (c :: rest) = none := if_neg (Ne.symm h)
  rw [matchProxy, hdrop]
  rfl

/-- The slash before a host begins no match, not even where the host is called `api`. -/
theorem dropLiteral_host {host rest : Text} (h : ∀ c ∈ host, c ≠ '/') :
    dropLiteral proxyPrefix ('/' :: (host ++ (proxyPrefix ++ rest))) = none := by
  rw [Option.eq_none_iff_forall_ne_some]
  intro r hr
  have htext : host ++ '/' :: ("api/proxy/".toList ++ rest) =
      "api".toList ++ '/' :: ("proxy/".toList ++ r) :=
    (List.cons.inj (eq_append_of_dropLiteral hr)).2
  have hcut : host = "api".toList := by
    have hfront := congrArg (List.takeWhile (· ≠ '/')) htext
    rwa [takeWhile_append_of_head, takeWhile_append_of_head (by decide) (by simp)] at hfront
    · exact List.all_eq_true.mpr fun c hc => decide_eq_true (h c hc)
    · simp
  rw [hcut] at htext
  have hrest := (List.cons.inj (List.append_cancel_left htext)).2
  exact absurd (List.cons.inj hrest).1 (by decide)

theorem matchProxy_append (mode : Mode) (tail : Text) :
    matchProxy (proxyPrefix ++ (mode.text ++ '/' :: tail)) =
      let fileId := tail.takeWhile isAlphanumeric
      if fileId = [] then none else some fileId := by
  have hmode : ([Mode.redirect, .stream, .video].findSome? fun m =>
      dropLiteral (m.text ++ ['/']) (mode.text ++ '/' :: tail)) = some tail := by
    cases mode <;> rfl
  rw [matchProxy, dropLiteral_append]
  simp only [Option.bind_eq_bind, Option.bind_some, hmode]

/-- Nothing in the base URL matches, so that the search begins behind it. -/
theorem BaseUrl.search_origin (base : BaseUrl) (rest : Text) :
    search matchProxy (base.origin ++ (proxyPrefix ++ rest)) =
      search matchProxy (proxyPrefix ++ rest) := by
  have hscheme : ∀ c ∈ base.scheme ++ [':'], c ≠ '/' := by
    intro c hc
    rcases List.mem_append.mp hc with hc | hc
    · exact isLetter_ne_slash (base.scheme_isLetter hc)
    · rw [List.mem_singleton.mp hc]
      decide
  have hsplit : base.origin ++ (proxyPrefix ++ rest) =
      (base.scheme ++ [':']) ++ '/' :: '/' :: (base.netloc ++ (proxyPrefix ++ rest)) := by
    rw [BaseUrl.origin, List.append_assoc, List.append_assoc]
    rfl
  have hfirst : matchProxy ('/' :: '/' :: (base.netloc ++ (proxyPrefix ++ rest))) = none := rfl
  have hsecond : matchProxy ('/' :: (base.netloc ++ (proxyPrefix ++ rest))) = none := by
    rw [matchProxy, dropLiteral_host fun c hc => base.netloc_ne_slash hc]
    rfl
  rw [hsplit, search_skip matchProxy_of_ne_slash hscheme, search_of_none hfirst,
    search_of_none hsecond]
  exact search_skip matchProxy_of_ne_slash fun c hc => base.netloc_ne_slash hc

theorem buildProxyUrl_eq (base : BaseUrl) (fileId : Text) (mode : Mode) :
    buildProxyUrl base.text fileId mode =
      base.origin ++ (proxyPrefix ++ (mode.text ++ '/' :: fileId)) := by
  rw [buildProxyUrl, base.rstrip_text]

/-- A file id of letters and digits is found up to where a query begins. -/
theorem extract_buildProxyUrl (base : BaseUrl) (mode : Mode) {fileId query : Text}
    (hne : fileId ≠ []) (hid : fileId.all isAlphanumeric = true)
    (hquery : query = [] ∨ query.head? = some '?') :
    extractFileIdFromProxyUrl (buildProxyUrl base.text fileId mode ++ query) = some fileId := by
  have hurl : buildProxyUrl base.text fileId mode ++ query =
      base.origin ++ (proxyPrefix ++ (mode.text ++ '/' :: (fileId ++ query))) := by
    rw [buildProxyUrl_eq, List.append_assoc, List.append_assoc, List.append_assoc, List.cons_append]
  have hcut : (fileId ++ query).takeWhile isAlphanumeric = fileId := by
    apply takeWhile_append_of_head hid
    intro c hc
    rcases hquery with rfl | hquery
    · exact nomatch hc
    · rw [hquery, Option.mem_some_iff] at hc
      rw [← hc]
      decide
  rw [extractFileIdFromProxyUrl, hurl, base.search_origin]
  apply search_of_matchAt
  rw [matchProxy_append, hcut]
  exact if_neg hne

/-- The pattern yields nothing but letters and digits. -/
theorem all_of_extract {url fileId : Text} (h : extractFileIdFromProxyUrl url = some fileId) :
    fileId.all isAlphanumeric = true := by
  obtain ⟨suffix, hmatch⟩ := exists_of_search h
  simp only [matchProxy, Option.bind_eq_bind, Option.bind_eq_some_iff] at hmatch
  obtain ⟨-, -, rest, -, hid⟩ := hmatch
  split at hid
  · exact nomatch hid
  · exact Option.some.inj hid ▸ List.all_takeWhile

end Proxy

section Stripping
variable {front text back : Text}

/-- The second half of `strip`. -/
def rstrip (text : Text) : Text := (text.reverse.dropWhile isSpace).reverse

theorem rstrip_append (hlast : ∀ c ∈ text.getLast?, isSpace c = false) :
    rstrip (text ++ back) = text ++ rstrip back := by
  have hstop : text.reverse.dropWhile isSpace = text.reverse := by
    apply dropWhile_of_head
    rwa [List.head?_reverse]
  rw [rstrip, List.reverse_append, List.dropWhile_append]
  split
  · next hempty => rw [rstrip, List.isEmpty_iff.mp hempty, hstop, List.reverse_reverse,
      List.reverse_nil, List.append_nil]
  · rw [List.reverse_append, List.reverse_reverse, rstrip]

theorem strip_append (hfront : front.all isSpace = true) (hne : text ≠ [])
    (hhead : ∀ c ∈ text.head?, isSpace c = false) (hlast : ∀ c ∈ text.getLast?, isSpace c = false) :
    strip (front ++ (text ++ back)) = text ++ rstrip back := by
  have hstop : (text ++ back).dropWhile isSpace = text ++ back := by
    apply dropWhile_of_head
    rwa [List.head?_append_of_ne_nil text hne]
  rw [← rstrip_append hlast, strip, List.dropWhile_append_of_pos (List.all_eq_true.mp hfront), hstop,
    rstrip]

/-- What is left of a query, or of nothing, is a query or nothing. -/
theorem rstrip_query {query : Text} (hquery : query = [] ∨ query.head? = some '?')
    (hback : back.all isSpace = true) :
    rstrip (query ++ back) = [] ∨ (rstrip (query ++ back)).head? = some '?' := by
  rcases hquery with rfl | hquery
  · left
    have hall : ∀ c ∈ back.reverse, isSpace c = true := fun c hc =>
      List.all_eq_true.mp hback c (List.mem_reverse.mp hc)
    rw [List.nil_append, rstrip, List.dropWhile_eq_nil_iff.mpr hall, List.reverse_nil]
  · right
    obtain ⟨rest, rfl⟩ := List.head?_eq_some_iff.mp hquery
    have hmark : rstrip (['?'] ++ (rest ++ back)) = ['?'] ++ rstrip (rest ++ back) := by
      apply rstrip_append
      intro c hc
      obtain rfl := Option.some.inj hc
      rfl
    rw [List.cons_append, ← List.singleton_append, hmark]
    rfl

end Stripping

section Identifiers
variable {value : Option Text} {fieldName : String} {fileId : Text}

theorem ne_nil_of_validateIdentifier (h : validateIdentifier value fieldName = .ok fileId) :
    fileId ≠ [] := by
  rintro rfl
  rw [validateIdentifier] at h
  cases hv : validateBasicString value fieldName maxIdLength with
  | error message =>
      rw [hv] at h
      exact nomatch h
  | ok v =>
      rw [hv] at h
      by_cases hpattern : matchesIdPattern v = false
      · simp [hpattern, bind, Except.bind, throw, throwThe, MonadExceptOf.throw] at h
      · simp [hpattern, bind, Except.bind, pure, Except.pure] at h
        rw [h] at hpattern
        exact hpattern rfl

theorem toNat_of_isAlphanumeric {c : Char} (h : isAlphanumeric c = true) :
    48 ≤ c.toNat ∧ c.toNat ≤ 122 := by
  simp only [isAlphanumeric, Bool.or_eq_true, Bool.and_eq_true, decide_eq_true_iff, Char.le_def,
    UInt32.le_iff_toNat_le] at h
  change ((65 ≤ c.toNat ∧ c.toNat ≤ 90) ∨ (97 ≤ c.toNat ∧ c.toNat ≤ 122)) ∨
    (48 ≤ c.toNat ∧ c.toNat ≤ 57) at h
  omega

theorem isSpace_of_isAlphanumeric {c : Char} (h : isAlphanumeric c = true) : isSpace c = false := by
  have hrange := toNat_of_isAlphanumeric h
  simp [isSpace]
  omega

theorem isAlphanumeric_of_isLetter {c : Char} (h : isLetter c = true) : isAlphanumeric c = true := by
  rw [isAlphanumeric, Bool.or_eq_true]
  exact .inl h

theorem BaseUrl.scheme_ne_nil (base : BaseUrl) : base.scheme ≠ [] := by
  intro hnil
  have hhttp := base.isHttp
  rw [hnil] at hhttp
  exact absurd hhttp (by decide)

end Identifiers

section RoundTrip

/-- A proxy URL in the content of a STRM file, with white space around it and a query. -/
theorem extract_content (checks : NetlocChecks) (base : BaseUrl) (mode : Mode)
    {fileId front query back : Text} (hne : fileId ≠ []) (hid : fileId.all isAlphanumeric = true)
    (hfront : front.all isSpace = true) (hquery : query = [] ∨ query.head? = some '?')
    (hback : back.all isSpace = true) :
    extractFileIdFromStrmContent checks
        (front ++ (buildProxyUrl base.text fileId mode ++ (query ++ back))) =
      .ok (some fileId) := by
  set url := buildProxyUrl base.text fileId mode with hurl
  obtain ⟨first, scheme, hscheme⟩ := List.exists_cons_of_ne_nil base.scheme_ne_nil
  have hfirst : isLetter first = true := base.scheme_isLetter (hscheme ▸ List.mem_cons_self)
  have hhead : url.head? = some first := by
    rw [hurl, buildProxyUrl_eq, BaseUrl.origin, hscheme]
    rfl
  have hlast : url.getLast? = fileId.getLast? := by
    obtain ⟨last, hlast⟩ := Option.ne_none_iff_exists'.mp (mt List.getLast?_eq_none_iff.mp hne)
    have hsplit : url = (base.origin ++ proxyPrefix ++ mode.text ++ ['/']) ++ fileId := by
      simp only [hurl, buildProxyUrl_eq, List.append_assoc, List.singleton_append]
    rw [hsplit, List.getLast?_append, hlast, Option.some_or]
  have hstrip : strip (front ++ (url ++ (query ++ back))) = url ++ rstrip (query ++ back) := by
    apply strip_append hfront
    · intro hnil
      rw [hnil] at hhead
      exact nomatch hhead
    · intro c hc
      rw [hhead, Option.mem_some_iff] at hc
      exact isSpace_of_isAlphanumeric (isAlphanumeric_of_isLetter (hc ▸ hfirst))
    · intro c hc
      rw [hlast] at hc
      exact isSpace_of_isAlphanumeric (List.all_eq_true.mp hid c (List.mem_of_getLast? hc))
  have hquark : ¬ quarkScheme <+: url ++ rstrip (query ++ back) := by
    rintro ⟨rest, hrest⟩
    have hq : (url ++ rstrip (query ++ back)).head? = some 'q' := hrest ▸ rfl
    rw [List.head?_append, hhead, Option.some_or, Option.some_inj] at hq
    have hhttp := base.isHttp
    rw [hscheme, hq, List.map_cons] at hhttp
    simp only [List.mem_cons, List.not_mem_nil, or_false] at hhttp
    rcases hhttp with hhttp | hhttp
    · exact absurd (List.cons.inj hhttp).1 (by decide)
    · exact absurd (List.cons.inj hhttp).1 (by decide)
  have hfound : extractFileIdFromProxyUrl (url ++ rstrip (query ++ back)) = some fileId :=
    extract_buildProxyUrl base mode hne hid (rstrip_query hquery hback)
  rw [extractFileIdFromStrmContent, hstrip]
  simp only [if_neg hquark, hfound]
  rfl

/-- A proxy URL gives an accepted file id back if and only if the id consists of ASCII letters
and digits. -/
theorem proxyUrl_roundTrip_iff (checks : NetlocChecks) (base : BaseUrl) (mode : Mode)
    {value : Option Text} {fieldName : String} {fileId : Text}
    (haccepted : validateIdentifier value fieldName = .ok fileId) :
    (extractFileIdFromProxyUrl (buildProxyUrl base.text fileId mode) = some fileId ∧
      ∀ front query back : Text, front.all isSpace = true →
        (query = [] ∨ query.head? = some '?') → back.all isSpace = true →
        extractFileIdFromStrmContent checks
            (front ++ (buildProxyUrl base.text fileId mode ++ (query ++ back))) =
          .ok (some fileId)) ↔
      fileId.all isAlphanumeric = true := by
  have hne := ne_nil_of_validateIdentifier haccepted
  constructor
  · rintro ⟨hextract, -⟩
    exact all_of_extract hextract
  · intro hid
    have hextract := extract_buildProxyUrl base mode hne hid (.inl rfl)
    rw [List.append_nil] at hextract
    refine ⟨hextract, ?_⟩
    intro front query back hfront hquery hback
    exact extract_content checks base mode hne hid hfront hquery hback

/-- A base URL with a port and a slash at its end. -/
def nasBase : BaseUrl where
  scheme := "http".toList
  netloc := "nas:8000".toList
  slashes := 1
  isHttp := by decide
  netloc_ne_nil := by decide
  netloc_chars := forall_mem_of_all (by decide)

theorem proxyUrl_roundTrip_alphanumeric :
    extractFileIdFromProxyUrl (buildProxyUrl nasBase.text "a1B2".toList .stream) =
        some "a1B2".toList ∧
      extractFileIdFromStrmContent ⟨fun _ => none, fun _ => none⟩
          ([' '] ++ (buildProxyUrl nasBase.text "a1B2".toList .stream ++
            ("?t=1".toList ++ ['\n']))) =
        .ok (some "a1B2".toList) := by
  have haccepted : validateIdentifier (some "a1B2".toList) "file_id" = .ok "a1B2".toList := by
    decide +kernel
  have hid : "a1B2".toList.all isAlphanumeric = true := by decide
  have hboth := (proxyUrl_roundTrip_iff ⟨fun _ => none, fun _ => none⟩ nasBase .stream
    haccepted).mpr hid
  exact ⟨hboth.1, hboth.2 [' '] "?t=1".toList ['\n'] (by decide) (.inr rfl) (by decide)⟩

/-- The id is accepted, and the pattern cuts it at the underscore. -/
theorem proxyUrl_truncates :
    validateIdentifier (some "abc_1".toList) "file_id" = .ok "abc_1".toList ∧
      extractFileIdFromProxyUrl (buildProxyUrl nasBase.text "abc_1".toList .stream) =
        some "abc".toList := by
  decide +kernel

end RoundTrip

end SmartMedia.Strm
