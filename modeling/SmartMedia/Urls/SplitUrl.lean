import SmartMedia.Strm.ProxyUrl
import SmartMedia.Urls.Netloc

/-!
# Splitting URLs

`urlsplit`, its inverse, and the property `port` of what it returns.
-/
namespace SmartMedia.Urls
open PythonText Strm

structure SplitResult where
  scheme : Text
  netloc : Text
  path : Text
  query : Text
  fragment : Text
deriving DecidableEq, Repr

/-- Without spaces in front, tabs and line breaks. -/
def removeUnsafe (url : Text) : Text := (url.dropWhile isControlOrSpace).filter (!isUnsafe ·)

/-- What is behind two slashes, up to the path, and the rest. -/
def splitNetloc (url : Text) : Text × Text :=
  match dropLiteral ['/', '/'] url with
  | some rest => cutAt ['/', '?', '#'] rest
  | none => ([], url)

/-- `urlsplit`; no value stands for a `ValueError`. -/
def urlsplit (checks : NetlocChecks) (url : Text) : Option SplitResult := do
  let (scheme, url) := splitScheme (removeUnsafe url)
  let (netloc, url) := splitNetloc url
  let .ok () := checkNetloc checks netloc | none
  let (url, fragment) := cutAt ['#'] url
  let (path, query) := cutAt ['?'] url
  return { scheme, netloc, path, query := query.tail, fragment := fragment.tail }

/-- The property `port`: decimal digits, also with zeros before them. -/
def port? (netloc : Text) : Option (Option ℕ) :=
  match (hostinfo netloc).2 with
  | none => some none
  | some port =>
      if port.all Char.isDigit = true ∧ port.length ≤ maxStrDigits ∧ intOf port ≤ 65535 then
        some (some (intOf port))
      else none

def usesNetloc : List Text :=
  ["", "ftp", "http", "gopher", "nntp", "telnet", "imap", "wais", "file", "mms", "https", "shttp",
    "snews", "prospero", "rtsp", "rtsps", "rtspu", "rsync", "svn", "svn+ssh", "sftp", "nfs", "git",
    "git+ssh", "ws", "wss"].map String.toList

/-- A part behind its mark, if there is one. -/
def marked (mark : Char) (part : Text) : Text := if part = [] then [] else mark :: part

def urlunsplit (parts : SplitResult) : Text :=
  let url :=
    if parts.netloc ≠ [] ∨ (parts.scheme ≠ [] ∧ parts.scheme ∈ usesNetloc) ∨
        "//".toList <+: parts.path then
      let path := if parts.path ≠ [] ∧ parts.path.head? ≠ some '/' then '/' :: parts.path
        else parts.path
      '/' :: '/' :: (parts.netloc ++ path)
    else parts.path
  let url := if parts.scheme ≠ [] then parts.scheme ++ ':' :: url else url
  url ++ (marked '?' parts.query ++ marked '#' parts.fragment)

section Parts
variable {checks : NetlocChecks} {url t : Text} {r r' : SplitResult}

theorem length_cutAt (delimiters : List Char) (text : Text) :
    (cutAt delimiters text).1.length + (cutAt delimiters text).2.length = text.length := by
  rw [cutAt_snd_eq, cutAt, ← List.length_append, List.takeWhile_append_dropWhile]

/-- The path, query and fragment of what is behind the network location. -/
structure Behind (rest : Text) (r : SplitResult) : Prop where
  path : r.path = (cutAt ['?'] (cutAt ['#'] rest).1).1
  query : r.query = (cutAt ['?'] (cutAt ['#'] rest).1).2.tail
  fragment : r.fragment = (cutAt ['#'] rest).2.tail

theorem length_marked_tail (delimiter : Char) (text : Text) :
    (marked delimiter (cutAt [delimiter] text).2.tail).length ≤ (cutAt [delimiter] text).2.length := by
  rw [marked]
  split_ifs with h
  · exact Nat.zero_le _
  · cases hcase : (cutAt [delimiter] text).2 with
    | nil =>
        rw [hcase] at h
        exact absurd rfl h
    | cons c rest => simp

/-- No character is counted twice. -/
theorem Behind.length_le {rest : Text} (h : Behind rest r) :
    r.path.length + (marked '?' r.query).length + (marked '#' r.fragment).length ≤ rest.length := by
  have hfragment := length_marked_tail '#' rest
  have hquery := length_marked_tail '?' (cutAt ['#'] rest).1
  have hrest := length_cutAt ['#'] rest
  have hurl := length_cutAt ['?'] (cutAt ['#'] rest).1
  rw [h.path, h.query, h.fragment]
  omega

/-- The parts of a URL with a network location. -/
theorem urlsplit_parts (h : urlsplit checks url = some r) (hnetloc : r.netloc ≠ []) :
    ∃ rest, splitScheme (removeUnsafe url) = (r.scheme, '/' :: '/' :: rest) ∧
      r.netloc = (cutAt ['/', '?', '#'] rest).1 ∧ Behind (cutAt ['/', '?', '#'] rest).2 r := by
  rw [urlsplit] at h
  dsimp only at h
  split at h
  · next hchecks =>
      cases h
      dsimp only at hnetloc ⊢
      rw [splitNetloc] at hnetloc ⊢
      cases hdrop : dropLiteral ['/', '/'] (splitScheme (removeUnsafe url)).2 with
      | none =>
          rw [hdrop] at hnetloc
          exact absurd rfl hnetloc
      | some rest =>
          refine ⟨rest, ?_, rfl, rfl, rfl, rfl⟩
          rw [Prod.ext_iff]
          exact ⟨rfl, eq_append_of_dropLiteral hdrop⟩
  · cases h

/-- A path behind a network location begins with a slash. -/
theorem Behind.rooted {text : Text} (h : Behind (cutAt ['/', '?', '#'] text).2 r) :
    r.path = [] ∨ r.path.head? = some '/' := by
  cases hpath : r.path with
  | nil => exact .inl rfl
  | cons c path =>
      have hmem : c ∈ (cutAt ['?'] (cutAt ['#'] (cutAt ['/', '?', '#'] text).2).1).1 := by
        rw [← h.path, hpath]
        exact List.mem_cons_self
      obtain ⟨hfront, hquery⟩ := mem_of_mem_cutAt_fst hmem
      have hfragment := (mem_of_mem_cutAt_fst hfront).2
      have hprefix : r.path <+: (cutAt ['/', '?', '#'] text).2 := by
        rw [h.path]
        exact (List.takeWhile_prefix _).trans (List.takeWhile_prefix _)
      rcases cutAt_snd ['/', '?', '#'] text with hnil | ⟨d, hd, rest, hrest⟩
      · rw [hnil, List.prefix_nil, hpath] at hprefix
        cases hprefix
      · rw [hrest, hpath, List.cons_prefix_cons] at hprefix
        obtain rfl := hprefix.1
        right
        simp only [List.mem_cons, List.not_mem_nil, or_false] at hd hquery hfragment
        rcases hd with rfl | rfl | rfl
        · rfl
        · exact absurd rfl hquery
        · exact absurd rfl hfragment

theorem cutAt_append_of_ne_nil {delimiters : List Char} {text : Text}
    (h : (cutAt delimiters text).2 ≠ []) (t : Text) :
    cutAt delimiters (text ++ t) = ((cutAt delimiters text).1, (cutAt delimiters text).2 ++ t) := by
  have hrest := h
  rw [cutAt_snd_eq] at hrest
  have hboth : (text ++ t).dropWhile (· ∉ delimiters) = text.dropWhile (· ∉ delimiters) ++ t := by
    rw [List.dropWhile_append, if_neg]
    rwa [List.isEmpty_iff]
  have hfront : (text ++ t).takeWhile (· ∉ delimiters) = text.takeWhile (· ∉ delimiters) := by
    have hwhole := List.takeWhile_append_dropWhile (p := (· ∉ delimiters)) (l := text ++ t)
    rw [hboth] at hwhole
    apply List.append_cancel_right (hwhole.trans _)
    rw [← List.append_assoc, List.takeWhile_append_dropWhile]
  rw [Prod.ext_iff]
  refine ⟨hfront, ?_⟩
  rw [cutAt_snd_eq, cutAt_snd_eq, hboth]

theorem splitScheme_eq {scheme rest : Text} (h : splitScheme url = (scheme, rest))
    (hne : scheme ≠ []) :
    ∃ first name c, cutAt [':'] url = (first :: name, c :: rest) ∧
      (isLetter first = true ∧ name.all isSchemeChar = true) ∧
      scheme = (first :: name).map Char.toLower := by
  rw [splitScheme] at h
  split at h
  · next first name c rest' hcut =>
      split_ifs at h with hvalid
      · cases h
        exact ⟨first, name, c, hcut, hvalid, rfl⟩
      · cases h
        exact absurd rfl hne
  · cases h
    exact absurd rfl hne

theorem splitScheme_append {scheme rest : Text} (h : splitScheme url = (scheme, rest))
    (hne : scheme ≠ []) (t : Text) : splitScheme (url ++ t) = (scheme, rest ++ t) := by
  obtain ⟨first, name, c, hcut, hvalid, rfl⟩ := splitScheme_eq h hne
  have happend : cutAt [':'] (url ++ t) = (first :: name, c :: (rest ++ t)) := by
    rw [cutAt_append_of_ne_nil (by rw [hcut]; exact List.cons_ne_nil c rest), hcut]
    rfl
  rw [splitScheme, happend]
  exact if_pos hvalid

theorem length_splitScheme {scheme rest : Text} (h : splitScheme url = (scheme, rest))
    (hne : scheme ≠ []) : scheme.length + 1 + rest.length = url.length := by
  obtain ⟨first, name, c, hcut, -, rfl⟩ := splitScheme_eq h hne
  have hlength := length_cutAt [':'] url
  rw [hcut, List.length_cons, List.length_cons] at hlength
  rw [List.length_map, List.length_cons]
  omega

theorem length_removeUnsafe (url : Text) : (removeUnsafe url).length ≤ url.length :=
  (List.length_filter_le _ _).trans (List.length_dropWhile_le _ _)

/-- A base URL is as long as its parts. -/
theorem length_of_urlsplit (h : urlsplit checks url = some r) (hscheme : r.scheme ≠ [])
    (hnetloc : r.netloc ≠ []) :
    r.scheme.length + 3 + r.netloc.length + r.path.length ≤ url.length := by
  obtain ⟨rest, hsplit, hloc, hbehind⟩ := urlsplit_parts h hnetloc
  have hlength := length_splitScheme hsplit hscheme
  have hclean := length_removeUnsafe url
  have hrest := length_cutAt ['/', '?', '#'] rest
  have hparts := hbehind.length_le
  rw [List.length_cons, List.length_cons] at hlength
  rw [hloc]
  omega

/-- Behind a base URL whose host goes on there is less than what was added. -/
theorem length_of_append (h : urlsplit checks url = some r)
    (h' : urlsplit checks (url ++ t) = some r') (hscheme : r.scheme ≠ []) (hnetloc : r.netloc ≠ [])
    (hnetloc' : r'.netloc ≠ []) (hne : r.netloc ≠ r'.netloc) :
    r'.path.length + (marked '?' r'.query).length + (marked '#' r'.fragment).length < t.length := by
  obtain ⟨rest, hsplit, hloc, -⟩ := urlsplit_parts h hnetloc
  obtain ⟨rest', hsplit', hloc', hbehind'⟩ := urlsplit_parts h' hnetloc'
  have hkept : (url.dropWhile isControlOrSpace) ≠ [] := by
    intro hnil
    rw [removeUnsafe, hnil] at hsplit
    exact hscheme (congrArg Prod.fst hsplit).symm
  have happend : removeUnsafe (url ++ t) = removeUnsafe url ++ t.filter (!isUnsafe ·) := by
    rw [removeUnsafe, List.dropWhile_append, if_neg (by rwa [List.isEmpty_iff]), List.filter_append]
    rfl
  rw [happend, splitScheme_append hsplit hscheme, Prod.mk.injEq] at hsplit'
  obtain ⟨hsame, hrest⟩ := hsplit'
  rw [List.cons_append, List.cons_append, List.cons.injEq, List.cons.injEq] at hrest
  obtain ⟨-, -, rfl⟩ := hrest
  have hend : (cutAt ['/', '?', '#'] rest).2 = [] := by
    by_contra hmore
    rw [cutAt_append_of_ne_nil hmore] at hloc'
    exact hne (hloc.trans hloc'.symm)
  have hwhole : r.netloc = rest := by
    have hboth : (cutAt ['/', '?', '#'] rest).1 ++ (cutAt ['/', '?', '#'] rest).2 = rest := by
      rw [cutAt_snd_eq]
      exact List.takeWhile_append_dropWhile
    rw [hend, List.append_nil] at hboth
    exact hloc.trans hboth
  subst hwhole
  have hparts := hbehind'.length_le
  have htotal := length_cutAt ['/', '?', '#'] (r.netloc ++ t.filter (!isUnsafe ·))
  have hfilter := List.length_filter_le (!isUnsafe ·) t
  have hlonger : r.netloc.length < r'.netloc.length := by
    have hfront : r'.netloc = r.netloc ++ (t.filter (!isUnsafe ·)).takeWhile (· ∉ ['/', '?', '#']) := by
      rw [hloc']
      apply List.takeWhile_append_of_pos
      intro c hc
      rw [hloc] at hc
      exact decide_eq_true (mem_of_mem_cutAt_fst hc).2
    have hmore : (t.filter (!isUnsafe ·)).takeWhile (· ∉ ['/', '?', '#']) ≠ [] := by
      intro hnil
      rw [hnil, List.append_nil] at hfront
      exact hne hfront.symm
    have hpos := List.length_pos_of_ne_nil hmore
    rw [hfront, List.length_append]
    omega
  rw [← hloc', List.length_append] at htotal
  omega

end Parts

end SmartMedia.Urls
