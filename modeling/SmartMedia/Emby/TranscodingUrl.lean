import SmartMedia.Library.QueryString
import SmartMedia.Strm.StableUrl
import SmartMedia.Urls.SplitUrl

/-!
# Transcoding URLs

`_rewrite_transcoding_url` of `app/services/playbackinfo_hook.py`. The item id stands in the path
as it is, so that one with a question or number sign would cut the URL short; the callers let no
such id pass.
-/
namespace SmartMedia.Emby
open QueryString Strm Urls

def mediaSourceKey : Strm.Text := "MediaSourceId".toList

/-- `LOCAL_PLAYBACK_PROXY_QUERY_KEY` -/
def localProxyKey : Strm.Text := "smart_media_proxy".toList

/-- `LOCAL_PLAYBACK_PROXY_QUERY_VALUE` -/
def localProxyValue : Strm.Text := ['1']

/-- The keys that are set anew. -/
def replacedKeys : List Strm.Text := [localProxyKey, mediaSourceKey, "media_source_id".toList]

/-- The pairs of a query that are kept. -/
def keptPairs (query : Strm.Text) : List Pair := (parseQsl query).filter (·.1 ∉ replacedKeys)

def newPairs (mediaSourceId : Strm.Text) : List Pair :=
  [(mediaSourceKey, mediaSourceId), (localProxyKey, localProxyValue)]

def masterUrl (itemId : Strm.Text) (pairs : List Pair) : Strm.Text :=
  "/Videos/".toList ++ (itemId ++ ("/master.m3u8".toList ++ '?' :: urlencode pairs))

/-- `_rewrite_transcoding_url`; no value stands for a `ValueError` of `urlsplit`. -/
def rewriteTranscodingUrl (checks : NetlocChecks) (itemId mediaSourceId originalUrl : Strm.Text) :
    Option Strm.Text :=
  (urlsplit checks originalUrl).map fun parts =>
    masterUrl itemId (keptPairs parts.query ++ newPairs mediaSourceId)

section Splitting
variable {checks : NetlocChecks} {itemId mediaSourceId rest : Strm.Text} {pairs : List Pair} {c : Char}

theorem splitScheme_rooted (rest : Strm.Text) : splitScheme ('/' :: rest) = ([], '/' :: rest) := by
  rw [splitScheme]
  split
  · next first name colon after hcut =>
      have hfirst : first = '/' := by
        have hfront := congrArg (fun parts : Strm.Text × Strm.Text => parts.1.head?) hcut
        exact (Option.some_inj.mp hfront).symm
      rw [hfirst, if_neg (by simp [isLetter])]
  · rfl

/-- A URL that begins with a single slash has neither a scheme nor a network location. -/
theorem urlsplit_rooted (hc : c ≠ '/' ∧ isUnsafe c = false) :
    urlsplit checks ('/' :: c :: rest) =
      let (url, fragment) := cutAt ['#'] ('/' :: c :: rest.filter (!isUnsafe ·))
      let (path, query) := cutAt ['?'] url
      some ⟨[], [], path, query.tail, fragment.tail⟩ := by
  have hclean : removeUnsafe ('/' :: c :: rest) = '/' :: c :: rest.filter (!isUnsafe ·) := by
    rw [removeUnsafe, List.dropWhile_cons_of_neg (by decide), List.filter_cons_of_pos (by decide),
      List.filter_cons_of_pos (by rw [hc.2]; rfl)]
  have hnetloc : splitNetloc ('/' :: c :: rest.filter (!isUnsafe ·)) =
      ([], '/' :: c :: rest.filter (!isUnsafe ·)) := by
    rw [splitNetloc, dropLiteral, if_pos rfl, dropLiteral, if_neg (Ne.symm hc.1)]
  have hcheck : checkNetloc checks [] = .ok () := rfl
  rw [urlsplit, hclean, splitScheme_rooted]
  dsimp only
  rw [hnetloc]
  dsimp only
  rw [hcheck]
  rfl

theorem filter_urlencode : (urlencode pairs).filter (!isUnsafe ·) = urlencode pairs := by
  refine List.filter_eq_self.mpr fun c hc => ?_
  rw [Bool.not_eq_true', isUnsafe, decide_eq_false_iff_not, List.mem_cons, List.mem_cons,
    List.mem_singleton]
  rintro (rfl | rfl | rfl)
  all_goals exact notMem_urlencode (by decide) rfl hc

theorem filter_front {front : Strm.Text} (hfront : front.filter (!isUnsafe ·) = front) :
    (front ++ rest).filter (!isUnsafe ·) = front ++ rest.filter (!isUnsafe ·) := by
  rw [List.filter_append, hfront]

/-- The path of a rewritten URL as it is split off. -/
def masterPath (itemId : Strm.Text) : Strm.Text :=
  "/Videos/".toList ++ (itemId.filter (!isUnsafe ·) ++ "/master.m3u8".toList)

theorem notMem_append {front back : Strm.Text} (hfront : c ∉ front) (hback : c ∉ back) :
    c ∉ front ++ back := fun h =>
  (List.mem_append.mp h).elim hfront hback

theorem notMem_masterPath (hitem : c ∉ itemId) (hc : c ∈ ['?', '#']) : c ∉ masterPath itemId := by
  have hkept : c ∉ itemId.filter (!isUnsafe ·) := fun h => hitem (List.mem_of_mem_filter h)
  have hfixed : c ∉ "/Videos/".toList ∧ c ∉ "/master.m3u8".toList := by
    rw [List.mem_cons, List.mem_singleton] at hc
    rcases hc with rfl | rfl
    · decide
    · decide
  exact notMem_append hfixed.1 (notMem_append hkept hfixed.2)

/-- The query of a rewritten URL, if the item id has no mark of one. -/
theorem urlsplit_masterUrl (hitem : '?' ∉ itemId ∧ '#' ∉ itemId) :
    urlsplit checks (masterUrl itemId pairs) =
      some ⟨[], [], masterPath itemId, urlencode pairs, []⟩ := by
  have hwhole : masterUrl itemId pairs = '/' :: 'V' :: ("ideos/".toList ++
      (itemId ++ ("/master.m3u8".toList ++ '?' :: urlencode pairs))) := rfl
  have hmaster : ("/master.m3u8".toList ++ '?' :: urlencode pairs).filter (!isUnsafe ·) =
      "/master.m3u8".toList ++ '?' :: urlencode pairs := by
    refine (filter_front (by decide)).trans (congrArg _ ?_)
    rw [List.filter_cons_of_pos (by decide), filter_urlencode]
  have hclean : '/' :: 'V' :: ("ideos/".toList ++
      (itemId ++ ("/master.m3u8".toList ++ '?' :: urlencode pairs))).filter (!isUnsafe ·) =
        masterPath itemId ++ '?' :: urlencode pairs := by
    have hrest : (itemId ++ ("/master.m3u8".toList ++ '?' :: urlencode pairs)).filter (!isUnsafe ·) =
        (itemId.filter (!isUnsafe ·) ++ "/master.m3u8".toList) ++ '?' :: urlencode pairs :=
      ((List.filter_append _ _).trans (congrArg _ hmaster)).trans (List.append_assoc _ _ _).symm
    exact (congrArg (fun text => '/' :: 'V' :: text) (filter_front (by decide))).trans
      (congrArg (fun text => "/Videos/".toList ++ text) hrest)
  have hfragment : cutAt ['#'] ((masterPath itemId ++ '?' :: urlencode pairs) ++ []) =
      (masterPath itemId ++ '?' :: urlencode pairs, []) := by
    refine cutAt_append (fun c hc hmark => ?_) (by simp)
    obtain rfl := List.mem_singleton.mp hmark
    have hrest : '#' ∉ '?' :: urlencode pairs :=
      List.not_mem_cons_of_ne_of_not_mem (by decide) (notMem_urlencode (by decide) rfl)
    exact notMem_append (notMem_masterPath hitem.2 (by simp)) hrest hc
  have hquery : cutAt ['?'] (masterPath itemId ++ '?' :: urlencode pairs) =
      (masterPath itemId, '?' :: urlencode pairs) := by
    refine cutAt_append (fun c hc hmark => ?_) (by simp)
    obtain rfl := List.mem_singleton.mp hmark
    exact notMem_masterPath hitem.1 (by simp) hc
  rw [List.append_nil] at hfragment
  rw [hwhole, urlsplit_rooted (by decide), hclean, hfragment]
  dsimp only
  rw [hquery]
  rfl

end Splitting

section Rewriting
variable {checks : NetlocChecks} {itemId mediaSourceId originalUrl : Strm.Text}

theorem replaced_of_mem_newPairs {pair : Pair} (h : pair ∈ newPairs mediaSourceId) :
    pair.1 ∈ replacedKeys := by
  rw [newPairs, List.mem_cons, List.mem_singleton] at h
  rcases h with rfl | rfl
  · exact List.mem_cons_of_mem _ List.mem_cons_self
  · exact List.mem_cons_self

theorem filter_kept_append_new (query : Strm.Text) :
    (keptPairs query ++ newPairs mediaSourceId).filter (·.1 ∉ replacedKeys) = keptPairs query := by
  have hkept : (keptPairs query).filter (·.1 ∉ replacedKeys) = keptPairs query := by
    rw [keptPairs, List.filter_filter]
    simp only [Bool.and_self]
  have hnew : (newPairs mediaSourceId).filter (·.1 ∉ replacedKeys) = [] := by
    refine List.filter_eq_nil_iff.mpr fun pair hpair hnot => ?_
    exact of_decide_eq_true hnot (replaced_of_mem_newPairs hpair)
  rw [List.filter_append, hkept, hnew, List.append_nil]

/-- The pairs of the new query are the kept ones and the two new ones, and a second rewriting
changes nothing. -/
structure Faithful (checks : NetlocChecks) (itemId mediaSourceId originalUrl url : Strm.Text) : Prop where
  pairs : ∀ parts, urlsplit checks originalUrl = some parts →
    ∃ parts', urlsplit checks url = some parts' ∧ parseQsl parts'.query =
      (parseQsl parts.query).filter (fun pair =>
        pair.1 ∉ ["smart_media_proxy".toList, "MediaSourceId".toList, "media_source_id".toList]) ++
      [("MediaSourceId".toList, mediaSourceId), ("smart_media_proxy".toList, ['1'])]
  mediaSource_once : ∀ parts', urlsplit checks url = some parts' →
    (parseQsl parts'.query).countP (fun pair => pair.1 = "MediaSourceId".toList) = 1
  localProxy_once : ∀ parts', urlsplit checks url = some parts' →
    (parseQsl parts'.query).countP (fun pair => pair.1 = "smart_media_proxy".toList) = 1
  idempotent : rewriteTranscodingUrl checks itemId mediaSourceId url = some url

theorem countP_kept_append_new {key : Strm.Text} (query : Strm.Text) (hkey : key ∈ replacedKeys) :
    (keptPairs query ++ newPairs mediaSourceId).countP (·.1 = key) =
      (newPairs mediaSourceId).countP (·.1 = key) := by
  have hnone : (keptPairs query).countP (·.1 = key) = 0 := by
    refine List.countP_eq_zero.mpr fun pair hpair hsame => ?_
    have hnot := of_decide_eq_true (List.mem_filter.mp hpair).2
    rw [of_decide_eq_true hsame] at hnot
    exact hnot hkey
  rw [List.countP_append, hnone, Nat.zero_add]

/-- Every URL that can be split is rewritten faithfully, for every item id that leaves the path
whole. -/
theorem rewriteTranscodingUrl_faithful (parts : SplitResult)
    (hsplit : urlsplit checks originalUrl = some parts) (hitem : '?' ∉ itemId ∧ '#' ∉ itemId) :
    ∃ url, rewriteTranscodingUrl checks itemId mediaSourceId originalUrl = some url ∧
      Faithful checks itemId mediaSourceId originalUrl url := by
  have hnew : urlsplit checks (masterUrl itemId (keptPairs parts.query ++ newPairs mediaSourceId)) =
      some ⟨[], [], masterPath itemId, urlencode (keptPairs parts.query ++ newPairs mediaSourceId),
        []⟩ := urlsplit_masterUrl hitem
  refine ⟨masterUrl itemId (keptPairs parts.query ++ newPairs mediaSourceId), ?_, ?_, ?_, ?_, ?_⟩
  · rw [rewriteTranscodingUrl, hsplit]
    rfl
  · intro parts' hparts
    rw [hsplit] at hparts
    cases hparts
    exact ⟨_, hnew, parseQsl_urlencode _⟩
  · intro parts' hparts
    rw [hnew] at hparts
    cases hparts
    rw [parseQsl_urlencode]
    exact countP_kept_append_new parts.query (List.mem_cons_of_mem _ List.mem_cons_self)
  · intro parts' hparts
    rw [hnew] at hparts
    cases hparts
    rw [parseQsl_urlencode]
    exact countP_kept_append_new parts.query List.mem_cons_self
  · rw [rewriteTranscodingUrl, hnew, Option.map_some, keptPairs, parseQsl_urlencode,
      filter_kept_append_new]

end Rewriting

section Samples

def uncheckedNetloc : NetlocChecks := ⟨fun _ => none, fun _ => none⟩

theorem repeatedPairs_rewritten : ∃ url,
    rewriteTranscodingUrl uncheckedNetloc "item1".toList "m".toList
      "/Videos/7/master.m3u8?a=%20&a=&MediaSourceId=z".toList = some url ∧
    Faithful uncheckedNetloc "item1".toList "m".toList
      "/Videos/7/master.m3u8?a=%20&a=&MediaSourceId=z".toList url :=
  rewriteTranscodingUrl_faithful
    ⟨[], [], "/Videos/7/master.m3u8".toList, "a=%20&a=&MediaSourceId=z".toList, []⟩
    (by decide +kernel) (by decide)

/-- An item id with a question sign swallows a key, and not every URL can be split. -/
theorem markedItem_unfaithful :
    (¬ ∃ url, rewriteTranscodingUrl uncheckedNetloc "a?b".toList "m".toList "/x".toList = some url ∧
      Faithful uncheckedNetloc "a?b".toList "m".toList "/x".toList url) ∧
    ¬ ∃ url, rewriteTranscodingUrl uncheckedNetloc "item1".toList "m".toList "//[".toList =
      some url := by
  constructor
  · rintro ⟨url, hurl, hfaithful⟩
    have hsplit : (rewriteTranscodingUrl uncheckedNetloc "a?b".toList "m".toList "/x".toList).bind
        (urlsplit uncheckedNetloc) = some ⟨[], [], "/Videos/a".toList,
          "b/master.m3u8?MediaSourceId=m&smart_media_proxy=1".toList, []⟩ := by decide +kernel
    rw [hurl, Option.bind_some] at hsplit
    have honce := hfaithful.mediaSource_once _ hsplit
    revert honce
    decide +kernel
  · rintro ⟨url, hurl⟩
    have hnone : rewriteTranscodingUrl uncheckedNetloc "item1".toList "m".toList "//[".toList =
        none := by decide +kernel
    rw [hnone] at hurl
    cases hurl

end Samples

end SmartMedia.Emby
