import SmartMedia.Emby.DeletePlan
import SmartMedia.Urls.SplitUrl

/-!
# Locations behind the gateway

`_rewrite_location` of `app/api/emby_gateway.py`, which maps the redirects of the Emby server to the
proxy.
-/
namespace SmartMedia.Emby
open PythonText Strm Urls

section Model
variable (lowering : Lowering) (checks : NetlocChecks)

/-- `location_matches_emby_origin`; no value stands for the `ValueError` of a port. -/
def matchesEmbyOrigin (location emby : SplitResult) : Option Bool :=
  let host := (truthy (hostname lowering location.netloc)).getD []
  if location.scheme ≠ [] ∧ host ≠ [] ∧
      lowering.lower location.scheme = lowering.lower emby.scheme ∧
      lowering.lower host = lowering.lower ((hostname lowering emby.netloc).getD []) then do
    let port ← port? location.netloc
    let embyPort ← port? emby.netloc
    return port = embyPort
  else some false

/-- `_rewrite_location`; no value stands for a `ValueError`. -/
def rewriteLocation (location embyBaseUrl proxyBaseUrl : Text) : Option Text := do
  if location = [] then return location
  let normalizedEmby := rstripSlashes embyBaseUrl
  let parsedLocation ← urlsplit checks location
  let parsedEmby ← urlsplit checks normalizedEmby
  let embyPath := rstripSlashes parsedEmby.path
  let path := parsedLocation.path
  if (← matchesEmbyOrigin lowering parsedLocation parsedEmby) = true ∧
      (embyPath = [] ∨ path = embyPath ∨ embyPath ++ ['/'] <+: path) then
    let rewrittenPath := if embyPath ≠ [] then path.drop embyPath.length else path
    let parsedProxy ← urlsplit checks (rstripSlashes proxyBaseUrl)
    return urlunsplit {
      scheme := parsedProxy.scheme
      netloc := parsedProxy.netloc
      path := rstripSlashes parsedProxy.path ++ rewrittenPath
      query := parsedLocation.query
      fragment := parsedLocation.fragment }
  else if normalizedEmby <+: location then
    return proxyBaseUrl ++ location.drop normalizedEmby.length
  else return location

end Model

section Space
variable (lowering : Lowering) (checks : NetlocChecks)

/-- The port of a URL without one. -/
def defaultPort (scheme : Text) : Option ℕ :=
  if scheme = "http".toList then some 80 else if scheme = "https".toList then some 443 else none

/-- Scheme and host of the location are those of the Emby server. -/
structure SameHost (location emby : SplitResult) : Prop where
  scheme_ne_nil : location.scheme ≠ []
  scheme : location.scheme = emby.scheme
  host : ∃ host embyHost, hostname lowering location.netloc = some host ∧ host ≠ [] ∧
    hostname lowering emby.netloc = some embyHost ∧ lowering.lower host = lowering.lower embyHost

/-- The location lies at the Emby base or below it, and this is the rest of its path. -/
structure InSpace (location emby : SplitResult) (rest : Text) : Prop where
  sameHost : SameHost lowering location emby
  port : ∃ port embyPort, port? location.netloc = some port ∧ port? emby.netloc = some embyPort ∧
    port.or (defaultPort location.scheme) = embyPort.or (defaultPort emby.scheme)
  path : location.path = rstripSlashes emby.path ++ rest
  boundary : rest = [] ∨ rest.head? = some '/'

/-- The proxy base followed by the rest of the location. -/
def image (proxy location : SplitResult) (rest : Text) : Text :=
  proxy.scheme ++ ':' :: '/' :: '/' :: (proxy.netloc ++ (rstripSlashes proxy.path ++
    (rest ++ (marked '?' location.query ++ marked '#' location.fragment))))

/-- What is in the space of the Emby server is mapped to the proxy, all else is returned as it is. -/
def Maps (location emby : Text) (proxy : SplitResult) (result : Option Text) : Prop :=
  (∀ parsed parsedEmby rest, urlsplit checks location = some parsed →
    urlsplit checks (rstripSlashes emby) = some parsedEmby →
      InSpace lowering parsed parsedEmby rest → result = some (image proxy parsed rest)) ∧
  ((∀ parsed parsedEmby rest, urlsplit checks location = some parsed →
    urlsplit checks (rstripSlashes emby) = some parsedEmby →
      ¬InSpace lowering parsed parsedEmby rest) → result = some location)

end Space

section Branches
variable {lowering : Lowering} {checks : NetlocChecks} {location emby proxy url rest : Text}
  {parsed parsedEmby parsedProxy r : SplitResult}

theorem lower_scheme (h : urlsplit checks url = some r) : lowering.lower r.scheme = r.scheme := by
  by_cases hne : r.scheme = []
  · rw [hne]
    rfl
  have hsplit : splitScheme (removeUnsafe url) = (r.scheme, (splitScheme (removeUnsafe url)).2) := by
    rw [urlsplit] at h
    dsimp only at h
    split at h
    · cases h
      rfl
    · cases h
  obtain ⟨first, name, c, -, ⟨hfirst, hname⟩, hscheme⟩ := splitScheme_eq hsplit hne
  have hascii : ∀ d ∈ first :: name, d.toNat < 128 := by
    have hletter : ∀ d, isAlphanumeric d = true → d.toNat < 128 := by
      intro d hd
      have hrange := toNat_of_isAlphanumeric hd
      omega
    intro d hd
    rcases List.mem_cons.mp hd with rfl | hd
    · exact hletter d (isAlphanumeric_of_isLetter hfirst)
    · have hchar := List.all_eq_true.mp hname d hd
      rw [isSchemeChar, Bool.or_eq_true, decide_eq_true_iff] at hchar
      rcases hchar with hchar | hchar
      · exact hletter d hchar
      · simp only [List.mem_cons, List.not_mem_nil, or_false] at hchar
        rcases hchar with rfl | rfl | rfl
        all_goals decide
  rw [hscheme]
  generalize first :: name = letters at hascii
  induction letters with
  | nil => rfl
  | cons d letters ih =>
      rw [List.forall_mem_cons] at hascii
      rw [List.map_cons, Lowering.lower_cons_of_ascii (Lowering.toNat_toLower_lt hascii.1),
        Lowering.toLower_toLower, ih hascii.2]

theorem netloc_ne_nil (h : SameHost lowering parsed parsedEmby) :
    parsed.netloc ≠ [] ∧ parsedEmby.netloc ≠ [] := by
  obtain ⟨host, embyHost, hhost, -, hembyHost, -⟩ := h.host
  constructor
  · intro hnil
    rw [hnil] at hhost
    cases hhost
  · intro hnil
    rw [hnil] at hembyHost
    cases hembyHost

/-- The test before the ports. -/
theorem sameHost_iff (hl : urlsplit checks location = some parsed)
    (he : urlsplit checks emby = some parsedEmby) :
    (parsed.scheme ≠ [] ∧ (truthy (hostname lowering parsed.netloc)).getD [] ≠ [] ∧
      lowering.lower parsed.scheme = lowering.lower parsedEmby.scheme ∧
      lowering.lower ((truthy (hostname lowering parsed.netloc)).getD []) =
        lowering.lower ((hostname lowering parsedEmby.netloc).getD [])) ↔
      SameHost lowering parsed parsedEmby := by
  rw [lower_scheme hl, lower_scheme he]
  constructor
  · rintro ⟨hscheme, hhost, hsame, hlower⟩
    cases hname : hostname lowering parsed.netloc with
    | none =>
        rw [hname] at hhost
        exact absurd rfl hhost
    | some host =>
        by_cases hempty : host = []
        · rw [hname, hempty] at hhost
          exact absurd rfl hhost
        · rw [hname, truthy_of_ne_nil hempty, Option.getD_some] at hlower
          cases hembyName : hostname lowering parsedEmby.netloc with
          | none =>
              rw [hembyName] at hlower
              exact absurd (Lowering.lower_eq_nil.mp hlower) hempty
          | some embyHost =>
              rw [hembyName] at hlower
              exact ⟨hscheme, hsame, host, embyHost, hname, hempty, hembyName, hlower⟩
  · rintro ⟨hscheme, hsame, host, embyHost, hname, hempty, hembyName, hlower⟩
    rw [hname, truthy_of_ne_nil hempty, hembyName]
    exact ⟨hscheme, hempty, hsame, hlower⟩

theorem matchesEmbyOrigin_of_sameHost (hl : urlsplit checks location = some parsed)
    (he : urlsplit checks emby = some parsedEmby) (h : SameHost lowering parsed parsedEmby) :
    matchesEmbyOrigin lowering parsed parsedEmby =
      (port? parsed.netloc).bind fun port => (port? parsedEmby.netloc).bind fun embyPort =>
        some (decide (port = embyPort)) := by
  rw [matchesEmbyOrigin, if_pos ((sameHost_iff hl he).mpr h)]
  rfl

theorem matchesEmbyOrigin_of_not (hl : urlsplit checks location = some parsed)
    (he : urlsplit checks emby = some parsedEmby) (h : ¬SameHost lowering parsed parsedEmby) :
    matchesEmbyOrigin lowering parsed parsedEmby = some false := by
  rw [matchesEmbyOrigin, if_neg (mt (sameHost_iff hl he).mp h)]

/-- The test of the path, for a path behind a host. -/
theorem path_test_iff {path embyPath : Text} (hrooted : path = [] ∨ path.head? = some '/') :
    (embyPath = [] ∨ path = embyPath ∨ embyPath ++ ['/'] <+: path) ↔
      ∃ rest, path = embyPath ++ rest ∧ (rest = [] ∨ rest.head? = some '/') := by
  constructor
  · rintro (rfl | rfl | ⟨rest, rfl⟩)
    · exact ⟨path, rfl, hrooted⟩
    · exact ⟨[], (List.append_nil _).symm, .inl rfl⟩
    · exact ⟨'/' :: rest, List.append_assoc _ _ _, .inr rfl⟩
  · rintro ⟨rest, rfl, rfl | hrest⟩
    · exact .inr (.inl (List.append_nil _))
    · obtain ⟨rest, rfl⟩ := List.head?_eq_some_iff.mp hrest
      exact .inr (.inr ⟨rest, List.append_assoc _ _ _⟩)

theorem rooted_of_urlsplit (h : urlsplit checks url = some r) (hne : r.netloc ≠ []) :
    r.path = [] ∨ r.path.head? = some '/' := by
  obtain ⟨rest, -, -, hbehind⟩ := urlsplit_parts h hne
  exact hbehind.rooted

theorem rstripSlashes_isPrefix (text : Text) : rstripSlashes text <+: text := by
  rw [rstripSlashes, ← List.reverse_suffix, List.reverse_reverse]
  exact List.dropWhile_suffix _

theorem rstripSlashes_rooted {path : Text} (h : path = [] ∨ path.head? = some '/') :
    rstripSlashes path = [] ∨ (rstripSlashes path).head? = some '/' := by
  have hbegins := rstripSlashes_isPrefix path
  cases hstrip : rstripSlashes path with
  | nil => exact .inl rfl
  | cons c front =>
      rw [hstrip] at hbegins
      rcases h with rfl | h
      · rw [List.prefix_nil] at hbegins
        cases hbegins
      · obtain ⟨rest, rfl⟩ := List.head?_eq_some_iff.mp h
        rw [List.cons_prefix_cons] at hbegins
        right
        rw [hbegins.1]
        rfl

/-- With a scheme and a host, and a path from the root, the parts are joined as they are. -/
theorem urlunsplit_eq {scheme netloc path : Text} (query fragment : Text) (hscheme : scheme ≠ [])
    (hnetloc : netloc ≠ []) (hpath : path = [] ∨ path.head? = some '/') :
    urlunsplit ⟨scheme, netloc, path, query, fragment⟩ =
      scheme ++ ':' :: '/' :: '/' :: (netloc ++ (path ++
        (marked '?' query ++ marked '#' fragment))) := by
  have hkept : ¬(path ≠ [] ∧ path.head? ≠ some '/') := by
    rintro ⟨hne, hhead⟩
    exact hpath.elim hne hhead
  rw [urlunsplit]
  dsimp only
  rw [if_pos (Or.inl hnetloc), if_neg hkept, if_pos hscheme]
  simp

/-- The comparisons, once both URLs are split. -/
theorem rewriteLocation_eq (hne : location ≠ []) (hl : urlsplit checks location = some parsed)
    (he : urlsplit checks (rstripSlashes emby) = some parsedEmby) :
    rewriteLocation lowering checks location emby proxy =
      (matchesEmbyOrigin lowering parsed parsedEmby).bind fun same =>
        if same = true ∧ (rstripSlashes parsedEmby.path = [] ∨
            parsed.path = rstripSlashes parsedEmby.path ∨
            rstripSlashes parsedEmby.path ++ ['/'] <+: parsed.path) then
          (urlsplit checks (rstripSlashes proxy)).bind fun parsedProxy => some (urlunsplit {
            scheme := parsedProxy.scheme
            netloc := parsedProxy.netloc
            path := rstripSlashes parsedProxy.path ++
              if rstripSlashes parsedEmby.path ≠ [] then
                parsed.path.drop (rstripSlashes parsedEmby.path).length
              else parsed.path
            query := parsed.query
            fragment := parsed.fragment })
        else if rstripSlashes emby <+: location then
          some (proxy ++ location.drop (rstripSlashes emby).length)
        else some location := by
  rw [rewriteLocation, if_neg hne, hl]
  dsimp only
  rw [he]
  rfl

/-- A port that cannot be read. -/
theorem rewriteLocation_eq_none (hne : location ≠ []) (hl : urlsplit checks location = some parsed)
    (he : urlsplit checks (rstripSlashes emby) = some parsedEmby)
    (hsame : SameHost lowering parsed parsedEmby)
    (hport : port? parsed.netloc = none ∨ port? parsedEmby.netloc = none) :
    rewriteLocation lowering checks location emby proxy = none := by
  rw [rewriteLocation_eq hne hl he, matchesEmbyOrigin_of_sameHost hl he hsame]
  rcases hport with hport | hport
  · rw [hport]
    rfl
  · rw [hport]
    cases port? parsed.netloc with
    | none => rfl
    | some port => rfl

/-- The structured comparison succeeds. -/
theorem rewriteLocation_of_inSpace (hne : location ≠ [])
    (hl : urlsplit checks location = some parsed)
    (he : urlsplit checks (rstripSlashes emby) = some parsedEmby)
    (hp : urlsplit checks (rstripSlashes proxy) = some parsedProxy)
    (hscheme : parsedProxy.scheme ≠ []) (hnetloc : parsedProxy.netloc ≠ [])
    (h : InSpace lowering parsed parsedEmby rest)
    (hport : port? parsed.netloc = port? parsedEmby.netloc) :
    rewriteLocation lowering checks location emby proxy = some (image parsedProxy parsed rest) := by
  obtain ⟨port, embyPort, hread, hembyRead, -⟩ := h.port
  obtain rfl : port = embyPort := by
    rw [hread, hembyRead] at hport
    exact Option.some_inj.mp hport
  have htest := (path_test_iff (rooted_of_urlsplit hl (netloc_ne_nil h.sameHost).1)).mpr
    ⟨rest, h.path, h.boundary⟩
  have hrewritten : (if rstripSlashes parsedEmby.path ≠ [] then
      parsed.path.drop (rstripSlashes parsedEmby.path).length else parsed.path) = rest := by
    rw [h.path]
    split_ifs with hempty
    · exact List.drop_left
    · rw [not_not.mp hempty]
      rfl
  have hrooted : rstripSlashes parsedProxy.path ++ rest = [] ∨
      (rstripSlashes parsedProxy.path ++ rest).head? = some '/' := by
    rcases rstripSlashes_rooted (rooted_of_urlsplit hp hnetloc) with hnil | hhead
    · rw [hnil]
      exact h.boundary
    · right
      rw [List.head?_append, hhead]
      rfl
  rw [rewriteLocation_eq hne hl he, matchesEmbyOrigin_of_sameHost hl he h.sameHost, hread, hembyRead,
    Option.bind_some, Option.bind_some, Option.bind_some, if_pos ⟨decide_eq_true rfl, htest⟩, hp,
    Option.bind_some, hrewritten, urlunsplit_eq _ _ hscheme hnetloc hrooted, List.append_assoc]
  rfl

/-- It fails, and the plain comparison of the texts decides. -/
theorem rewriteLocation_of_not (hne : location ≠ [])
    (hl : urlsplit checks location = some parsed)
    (he : urlsplit checks (rstripSlashes emby) = some parsedEmby)
    (hread : SameHost lowering parsed parsedEmby →
      port? parsed.netloc ≠ none ∧ port? parsedEmby.netloc ≠ none)
    (h : ∀ rest, InSpace lowering parsed parsedEmby rest →
      port? parsed.netloc ≠ port? parsedEmby.netloc) :
    rewriteLocation lowering checks location emby proxy =
      if rstripSlashes emby <+: location then
        some (proxy ++ location.drop (rstripSlashes emby).length) else some location := by
  rw [rewriteLocation_eq hne hl he]
  by_cases hsame : SameHost lowering parsed parsedEmby
  · obtain ⟨port, hport⟩ := Option.ne_none_iff_exists'.mp (hread hsame).1
    obtain ⟨embyPort, hembyPort⟩ := Option.ne_none_iff_exists'.mp (hread hsame).2
    have hnot : ¬(decide (port = embyPort) = true ∧ (rstripSlashes parsedEmby.path = [] ∨
        parsed.path = rstripSlashes parsedEmby.path ∨
        rstripSlashes parsedEmby.path ++ ['/'] <+: parsed.path)) := by
      rintro ⟨heq, htest⟩
      obtain rfl := of_decide_eq_true heq
      rw [path_test_iff (rooted_of_urlsplit hl (netloc_ne_nil hsame).1)] at htest
      obtain ⟨rest, hpath, hboundary⟩ := htest
      refine h rest ⟨hsame, ⟨port, port, hport, hembyPort, ?_⟩, hpath, hboundary⟩
        (hport.trans hembyPort.symm)
      rw [hsame.scheme]
    rw [matchesEmbyOrigin_of_sameHost hl he hsame, hport, hembyPort, Option.bind_some,
      Option.bind_some, Option.bind_some, if_neg hnot]
  · rw [matchesEmbyOrigin_of_not hl he hsame, Option.bind_some,
      if_neg fun hboth => Bool.false_ne_true hboth.1]

/-- The texts alone do not map what is in the space. -/
theorem append_ne_image {t : Text} (hl : urlsplit checks (emby ++ t) = some parsed)
    (he : urlsplit checks emby = some parsedEmby)
    (hp : urlsplit checks (rstripSlashes proxy) = some parsedProxy)
    (hscheme : parsedProxy.scheme ≠ []) (hnetloc : parsedProxy.netloc ≠ [])
    (h : InSpace lowering parsed parsedEmby rest)
    (hport : port? parsed.netloc ≠ port? parsedEmby.netloc) :
    proxy ++ t ≠ image parsedProxy parsed rest := by
  intro heq
  have hnetlocs : parsedEmby.netloc ≠ parsed.netloc := by
    intro hsame
    rw [hsame] at hport
    exact hport rfl
  have hembyScheme : parsedEmby.scheme ≠ [] := by
    rw [← h.sameHost.scheme]
    exact h.sameHost.scheme_ne_nil
  have hadded := length_of_append he hl hembyScheme (netloc_ne_nil h.sameHost).2
    (netloc_ne_nil h.sameHost).1 hnetlocs
  have hbase := length_of_urlsplit hp hscheme hnetloc
  have hstrip := (rstripSlashes_isPrefix proxy).length_le
  have hpath := (rstripSlashes_isPrefix parsedProxy.path).length_le
  have hrest := congrArg List.length h.path
  have hlength := congrArg List.length heq
  simp only [image, List.length_append, List.length_cons] at hrest hlength
  omega

end Branches

section Exactness
variable {lowering : Lowering} {checks : NetlocChecks} {location emby proxy : Text}
  {parsed parsedEmby parsedProxy : SplitResult}

/-- The locations that are handled as they should be. Both URLs can be split, and for the host of
the Emby server the ports can be read. What is in the space names the port as the base does, or
stands at the proxy already and does not begin with the text of the base. What is not in the space
does not begin with that text, unless the proxy is the server itself. -/
structure Handled (lowering : Lowering) (checks : NetlocChecks) (location emby proxy : Text)
    (parsed parsedEmby parsedProxy : SplitResult) : Prop where
  splits : urlsplit checks location = some parsed
  embySplits : urlsplit checks (rstripSlashes emby) = some parsedEmby
  ports : SameHost lowering parsed parsedEmby →
    port? parsed.netloc ≠ none ∧ port? parsedEmby.netloc ≠ none
  inside : ∀ rest, InSpace lowering parsed parsedEmby rest →
    port? parsed.netloc = port? parsedEmby.netloc ∨
      ¬rstripSlashes emby <+: location ∧ location = image parsedProxy parsed rest
  outside : (∀ rest, ¬InSpace lowering parsed parsedEmby rest) → rstripSlashes emby <+: location →
    proxy = rstripSlashes emby

theorem maps_iff_of_urlsplit {result : Option Text} (hl : urlsplit checks location = some parsed)
    (he : urlsplit checks (rstripSlashes emby) = some parsedEmby) :
    Maps lowering checks location emby parsedProxy result ↔
      (∀ rest, InSpace lowering parsed parsedEmby rest →
        result = some (image parsedProxy parsed rest)) ∧
      ((∀ rest, ¬InSpace lowering parsed parsedEmby rest) → result = some location) := by
  have hunique : ∀ {r r'}, urlsplit checks location = some r →
      urlsplit checks (rstripSlashes emby) = some r' → r = parsed ∧ r' = parsedEmby := by
    intro r r' h h'
    rw [hl] at h
    rw [he] at h'
    cases h
    cases h'
    exact ⟨rfl, rfl⟩
  constructor
  · rintro ⟨hin, hout⟩
    refine ⟨fun rest => hin parsed parsedEmby rest hl he, fun hnone => hout ?_⟩
    intro r r' rest h h'
    obtain ⟨rfl, rfl⟩ := hunique h h'
    exact hnone rest
  · rintro ⟨hin, hout⟩
    constructor
    · intro r r' rest h h'
      obtain ⟨rfl, rfl⟩ := hunique h h'
      exact hin rest
    · exact fun hnone => hout fun rest => hnone parsed parsedEmby rest hl he

theorem not_maps_of_unread (hunread : urlsplit checks location = none ∨
      urlsplit checks (rstripSlashes emby) = none) :
    ¬Maps lowering checks location emby parsedProxy none := by
  rintro ⟨-, hout⟩
  have hnone : none = some location := by
    apply hout
    intro r r' rest h h'
    rcases hunread with hunread | hunread
    · rw [hunread] at h
      cases h
    · rw [hunread] at h'
      cases h'
  cases hnone

theorem rewriteLocation_of_unread (hne : location ≠ [])
    (hunread : urlsplit checks location = none ∨ urlsplit checks (rstripSlashes emby) = none) :
    rewriteLocation lowering checks location emby proxy = none := by
  rw [rewriteLocation, if_neg hne]
  cases hl : urlsplit checks location with
  | none => rfl
  | some r =>
      rcases hunread with hunread | hunread
      · rw [hl] at hunread
        cases hunread
      · dsimp only
        rw [hunread]
        rfl

theorem maps_iff_handled (hne : location ≠ []) (hl : urlsplit checks location = some parsed)
    (he : urlsplit checks (rstripSlashes emby) = some parsedEmby)
    (hp : urlsplit checks (rstripSlashes proxy) = some parsedProxy)
    (hscheme : parsedProxy.scheme ≠ []) (hnetloc : parsedProxy.netloc ≠ []) :
    Maps lowering checks location emby parsedProxy
        (rewriteLocation lowering checks location emby proxy) ↔
      Handled lowering checks location emby proxy parsed parsedEmby parsedProxy := by
  rw [maps_iff_of_urlsplit hl he]
  by_cases hread : SameHost lowering parsed parsedEmby →
      port? parsed.netloc ≠ none ∧ port? parsedEmby.netloc ≠ none
  · by_cases hdirect : ∃ rest, InSpace lowering parsed parsedEmby rest ∧
        port? parsed.netloc = port? parsedEmby.netloc
    · obtain ⟨rest, hin, hport⟩ := hdirect
      rw [rewriteLocation_of_inSpace hne hl he hp hscheme hnetloc hin hport]
      constructor
      · exact fun _ => ⟨hl, he, hread, fun _ _ => .inl hport, fun hnone => absurd hin (hnone rest)⟩
      · intro _
        refine ⟨?_, fun hnone => absurd hin (hnone rest)⟩
        intro rest' hin'
        rw [List.append_cancel_left (hin'.path.symm.trans hin.path)]
    · have hports : ∀ rest, InSpace lowering parsed parsedEmby rest →
          port? parsed.netloc ≠ port? parsedEmby.netloc := fun rest hin hport =>
        hdirect ⟨rest, hin, hport⟩
      rw [rewriteLocation_of_not hne hl he hread hports]
      by_cases hbegins : rstripSlashes emby <+: location
      · rw [if_pos hbegins]
        obtain ⟨t, ht⟩ := hbegins
        have hdrop : location.drop (rstripSlashes emby).length = t := by
          rw [← ht]
          exact List.drop_left
        rw [hdrop]
        constructor
        · rintro ⟨hin, hout⟩
          refine ⟨hl, he, hread, ?_, ?_⟩
          · intro rest hrest
            subst ht
            exact absurd (Option.some_inj.mp (hin rest hrest))
              (append_ne_image hl he hp hscheme hnetloc hrest (hports rest hrest))
          · intro hnone _
            have hsame := Option.some_inj.mp (hout hnone)
            rw [← ht] at hsame
            exact List.append_cancel_right hsame
        · intro h
          constructor
          · intro rest hrest
            rcases h.inside rest hrest with hport | ⟨hnot, -⟩
            · exact absurd hport (hports rest hrest)
            · exact absurd ⟨t, ht⟩ hnot
          · intro hnone
            rw [h.outside hnone ⟨t, ht⟩, ht]
      · rw [if_neg hbegins]
        constructor
        · rintro ⟨hin, -⟩
          exact ⟨hl, he, hread, fun rest hrest =>
            .inr ⟨hbegins, Option.some_inj.mp (hin rest hrest)⟩, fun _ h => absurd h hbegins⟩
        · intro h
          refine ⟨?_, fun _ => rfl⟩
          intro rest hrest
          rcases h.inside rest hrest with hport | ⟨-, hsame⟩
          · exact absurd hport (hports rest hrest)
          · exact congrArg some hsame
  · have hnot := hread
    rw [Classical.not_imp, not_and_or, not_not, not_not] at hnot
    rw [rewriteLocation_eq_none hne hl he hnot.1 hnot.2]
    constructor
    · rintro ⟨hin, hout⟩
      exfalso
      by_cases hnone : ∀ rest, ¬InSpace lowering parsed parsedEmby rest
      · cases hout hnone
      · rw [not_forall] at hnone
        obtain ⟨rest, hrest⟩ := hnone
        cases hin rest (not_not.mp hrest)
    · exact fun h => absurd h.ports hread

/-- So the Emby URL space is mapped, and nothing else, if and only if the location is empty or
handled. A proxy base is any text with a scheme and a host. -/
theorem rewriteLocation_maps_iff (lowering : Lowering) (checks : NetlocChecks)
    (location emby proxy : Text) (parsedProxy : SplitResult)
    (hp : urlsplit checks (rstripSlashes proxy) = some parsedProxy)
    (hscheme : parsedProxy.scheme ≠ []) (hnetloc : parsedProxy.netloc ≠ []) :
    Maps lowering checks location emby parsedProxy
        (rewriteLocation lowering checks location emby proxy) ↔
      location = [] ∨ ∃ parsed parsedEmby,
        Handled lowering checks location emby proxy parsed parsedEmby parsedProxy := by
  by_cases hne : location = []
  · subst hne
    refine iff_of_true ⟨?_, fun _ => rfl⟩ (.inl rfl)
    intro parsed parsedEmby rest hl _ h
    have hempty : urlsplit checks [] = some ⟨[], [], [], [], []⟩ := rfl
    rw [hempty] at hl
    cases hl
    exact absurd rfl h.sameHost.scheme_ne_nil
  rw [or_iff_right hne]
  by_cases hunread : urlsplit checks location = none ∨ urlsplit checks (rstripSlashes emby) = none
  · rw [rewriteLocation_of_unread hne hunread]
    refine iff_of_false (not_maps_of_unread hunread) ?_
    rintro ⟨parsed, parsedEmby, h⟩
    rcases hunread with hunread | hunread
    · rw [h.splits] at hunread
      cases hunread
    · rw [h.embySplits] at hunread
      cases hunread
  · rw [not_or] at hunread
    obtain ⟨parsed, hl⟩ := Option.ne_none_iff_exists'.mp hunread.1
    obtain ⟨parsedEmby, he⟩ := Option.ne_none_iff_exists'.mp hunread.2
    rw [maps_iff_handled hne hl he hp hscheme hnetloc]
    constructor
    · exact fun h => ⟨parsed, parsedEmby, h⟩
    · rintro ⟨r, r', h⟩
      obtain rfl := Option.some_inj.mp (hl.symm.trans h.splits)
      obtain rfl := Option.some_inj.mp (he.symm.trans h.embySplits)
      exact h

/-- A path below the base. -/
theorem index_maps :
    Maps .ascii ⟨fun _ => none, fun _ => none⟩ "http://EMBY:8096/web/index.html?a=1".toList
      "http://emby:8096/".toList ⟨"https".toList, "media.example".toList, [], [], []⟩
      (rewriteLocation .ascii ⟨fun _ => none, fun _ => none⟩
        "http://EMBY:8096/web/index.html?a=1".toList "http://emby:8096/".toList
        "https://media.example".toList) := by
  refine (rewriteLocation_maps_iff _ _ _ _ _ _ rfl (by decide) (by decide)).mpr
    (.inr ⟨_, _, rfl, rfl, ?_, ?_, ?_⟩)
  · exact fun _ => ⟨by decide, by decide⟩
  · exact fun _ _ => .inl rfl
  · intro _ hbegins
    exact absurd hbegins (by decide)

/-- A host that goes on behind the server's name, and the default port, reach hosts and ports at the
proxy that do not exist. -/
theorem bogus_redirects :
    rewriteLocation .ascii ⟨fun _ => none, fun _ => none⟩ "http://emby.evil/x".toList
        "http://emby".toList "https://media".toList = some "https://media.evil/x".toList ∧
      rewriteLocation .ascii ⟨fun _ => none, fun _ => none⟩ "http://emby:80/x".toList
        "http://emby".toList "https://media".toList = some "https://media:80/x".toList ∧
      ∀ location ∈ ["http://emby.evil/x", "http://emby:80/x"].map String.toList,
        ¬Maps .ascii ⟨fun _ => none, fun _ => none⟩ location "http://emby".toList
          ⟨"https".toList, "media".toList, [], [], []⟩
          (rewriteLocation .ascii ⟨fun _ => none, fun _ => none⟩ location "http://emby".toList
            "https://media".toList) := by
  have hevil : rewriteLocation .ascii ⟨fun _ => none, fun _ => none⟩ "http://emby.evil/x".toList
      "http://emby".toList "https://media".toList = some "https://media.evil/x".toList := by decide
  have hport : rewriteLocation .ascii ⟨fun _ => none, fun _ => none⟩ "http://emby:80/x".toList
      "http://emby".toList "https://media".toList = some "https://media:80/x".toList := by decide
  have hemby : urlsplit ⟨fun _ => none, fun _ => none⟩ (rstripSlashes "http://emby".toList) =
      some ⟨"http".toList, "emby".toList, [], [], []⟩ := by decide
  have hevilParts : urlsplit ⟨fun _ => none, fun _ => none⟩ "http://emby.evil/x".toList =
      some ⟨"http".toList, "emby.evil".toList, "/x".toList, [], []⟩ := by decide
  have hportParts : urlsplit ⟨fun _ => none, fun _ => none⟩ "http://emby:80/x".toList =
      some ⟨"http".toList, "emby:80".toList, "/x".toList, [], []⟩ := by decide
  refine ⟨hevil, hport, ?_⟩
  rw [List.forall_mem_map, List.forall_mem_cons, List.forall_mem_singleton]
  constructor
  · rw [hevil, maps_iff_of_urlsplit hevilParts hemby]
    rintro ⟨-, hout⟩
    refine absurd (hout ?_) (by decide)
    intro rest h
    obtain ⟨host, embyHost, hhost, -, hembyHost, hlower⟩ := h.sameHost.host
    cases hhost
    cases hembyHost
    exact absurd hlower (by decide)
  · rw [hport, maps_iff_of_urlsplit hportParts hemby]
    rintro ⟨hin, -⟩
    have hmapped := hin "/x".toList ⟨⟨by decide, rfl, _, _, rfl, by decide, rfl, rfl⟩,
      ⟨some 80, none, by decide, by decide, by decide⟩, rfl, .inr rfl⟩
    exact absurd hmapped (by decide)

end Exactness

end SmartMedia.Emby
