import SmartMedia.Media.StrmAgreement
import SmartMedia.Strm.StableUrl

/-!
# WebDAV URLs

The `webdav` mode of `_generate_video_url`, and what becomes of its URL: the server takes the
path, unquotes it once and strips the mount path.
-/
namespace SmartMedia.Strm
open PercentEncoding Media

/-- The safe set `"/"` with the characters that are always safe. -/
def isPathSafe (c : Char) : Bool := isAlphanumeric c || c ∈ ['_', '.', '-', '~', '/']

/-- `lstrip("/")`. -/
def lstripSlashes (path : Text) : Text := path.dropWhile (· = '/')

/-- `strip("/")`. -/
def stripSlashes (path : Text) : Text := rstripSlashes (lstripSlashes path)

/-- `get_webdav_config`: credentials without a slash, which `quote` would leave as it stands,
and a mount path that `app.mount` takes and a URL keeps. -/
structure WebdavConfig where
  mountPath : Text
  username : Text
  password : Text
  rooted : mountPath.head? = some '/'
  mount_safe : ∀ c ∈ mountPath, isPathSafe c = true
  username_noSlash : '/' ∉ username
  password_noSlash : '/' ∉ password

namespace WebdavConfig
variable (cfg : WebdavConfig)

/-- `mount_path`, as it stands in a URL. -/
def mount : Text :=
  let path := rstripSlashes (if cfg.mountPath = [] then "/dav".toList else cfg.mountPath)
  if path.head? = some '/' then path else '/' :: path

/-- The network location with the credentials. -/
def netloc (netloc : Text) : Text :=
  if cfg.username ≠ [] ∧ cfg.password ≠ [] ∧ '@' ∉ netloc then
    quote isPathSafe cfg.username ++
      ':' :: (quote isPathSafe cfg.password ++ '@' :: netloc)
  else netloc

/-- `_generate_video_url`. -/
def videoUrl (base : BaseUrl) (remotePath : Text) : Text :=
  base.scheme.map Char.toLower ++ ':' :: '/' :: '/' :: cfg.netloc base.netloc ++ cfg.mount ++
    quote isPathSafe ('/' :: lstripSlashes remotePath)

/-- The path that the provider is asked for; `none` is a URL elsewhere. -/
def requestPath (checks : NetlocChecks) (url : Text) : Option Text :=
  match urlparse checks url with
  | .error _ => none
  | .ok parsed => dropLiteral (rstripSlashes cfg.mountPath) (unquote parsed.path)

end WebdavConfig

section Slashes
variable {path : Text}

theorem components_lstripSlashes : components (lstripSlashes path) = components path := by
  induction path with
  | nil => rfl
  | cons c path ih =>
      rw [lstripSlashes, List.dropWhile_cons]
      split_ifs with hc
      · rw [of_decide_eq_true hc, components_slash]
        exact ih
      · rfl

theorem eq_rstripSlashes_append (path : Text) :
    ∃ n, path = rstripSlashes path ++ List.replicate n '/' := by
  have hslashes : ∀ c ∈ path.reverse.takeWhile (· = '/'), c = '/' := fun c hc =>
    of_decide_eq_true (List.all_eq_true.mp List.all_takeWhile c hc)
  refine ⟨(path.reverse.takeWhile (· = '/')).length, ?_⟩
  rw [rstripSlashes, ← List.eq_replicate_of_mem hslashes, ← List.reverse_inj, List.reverse_append,
    List.reverse_reverse, List.eq_replicate_of_mem hslashes, List.reverse_replicate,
    ← List.eq_replicate_of_mem hslashes, List.takeWhile_append_dropWhile]

theorem components_rstripSlashes : components (rstripSlashes path) = components path := by
  obtain ⟨n, hpath⟩ := eq_rstripSlashes_append path
  have hslashes : ∀ n, components (List.replicate n '/') = [] := by
    intro n
    induction n with
    | zero => rfl
    | succ n ih => rw [List.replicate_succ, components_slash, ih]
  conv_rhs => rw [hpath]
  cases n with
  | zero => rw [List.replicate_zero, List.append_nil]
  | succ n => rw [List.replicate_succ, components_append, hslashes, List.append_nil]

theorem components_stripSlashes : components (stripSlashes path) = components path := by
  rw [stripSlashes, components_rstripSlashes, components_lstripSlashes]

end Slashes

section Characters
variable {c : Char} {text : Text}

theorem isPathSafe_plain (h : isPathSafe c = true) :
    (c ∉ ['?', '#', ';'] ∧ isControlOrSpace c = false) ∧ isAscii c = true := by
  rw [isPathSafe, Bool.or_eq_true, decide_eq_true_iff] at h
  rcases h with h | h
  · have hrange := toNat_of_isAlphanumeric h
    have hplain := isIdChar_plain (c := c) (by rw [isIdChar, h, Bool.true_or])
    refine ⟨⟨fun hmem => hplain.1 (List.mem_append_left ['/'] hmem), hplain.2⟩, ?_⟩
    rw [isAscii]
    exact decide_eq_true (by omega)
  · simp only [List.mem_cons, List.not_mem_nil, or_false] at h
    rcases h with rfl | rfl | rfl | rfl | rfl <;> decide

theorem quote_plain (h : c ∈ quote isPathSafe text) :
    c ∉ ['?', '#', ';'] ∧ isControlOrSpace c = false := by
  rcases quote_mem h with rfl | ⟨n, hn, rfl⟩ | ⟨hsafe, -⟩
  · decide
  · interval_cases n <;> decide
  · exact (isPathSafe_plain hsafe).1

theorem slash_mem_of_quote (h : '/' ∈ quote isPathSafe text) : '/' ∈ text := by
  rcases quote_mem h with hc | ⟨n, hn, hc⟩ | ⟨-, hmem⟩
  · exact absurd hc (by decide)
  · exfalso
    revert hc
    interval_cases n <;> decide
  · exact hmem

end Characters

section Requests
variable {cfg : WebdavConfig} {base : BaseUrl} {checks : NetlocChecks} {remotePath : Text}

theorem WebdavConfig.netloc_chars {netloc : Text}
    (h : ∀ c ∈ netloc, c ∉ ['/', '?', '#'] ∧ isControlOrSpace c = false) :
    ∀ c ∈ cfg.netloc netloc, c ∉ ['/', '?', '#'] ∧ isControlOrSpace c = false := by
  have hquoted : ∀ text : Text, '/' ∉ text → ∀ c ∈ quote isPathSafe text,
      c ∉ ['/', '?', '#'] ∧ isControlOrSpace c = false := by
    intro text htext c hc
    refine ⟨fun hmem => ?_, (quote_plain hc).2⟩
    rw [List.mem_cons] at hmem
    rcases hmem with rfl | hmem
    · exact htext (slash_mem_of_quote hc)
    · exact (quote_plain hc).1 (List.mem_append_left [';'] hmem)
  rw [WebdavConfig.netloc]
  split_ifs
  · intro c hc
    rw [List.mem_append, List.mem_cons, List.mem_append, List.mem_cons] at hc
    rcases hc with hc | rfl | hc | rfl | hc
    · exact hquoted _ cfg.username_noSlash c hc
    · decide
    · exact hquoted _ cfg.password_noSlash c hc
    · decide
    · exact h c hc
  · exact h

/-- The base of a URL with its credentials. -/
def WebdavConfig.site (cfg : WebdavConfig) (base : BaseUrl) : BaseUrl where
  scheme := base.scheme.map Char.toLower
  netloc := cfg.netloc base.netloc
  slashes := 0
  isHttp := by
    have hhttp := base.isHttp
    simp only [List.mem_cons, List.not_mem_nil, or_false] at hhttp
    rcases hhttp with h | h <;> rw [h] <;> decide
  netloc_ne_nil := by
    rw [netloc]
    split_ifs
    · exact List.append_ne_nil_of_right_ne_nil _ (List.cons_ne_nil _ _)
    · exact base.netloc_ne_nil
  netloc_chars := netloc_chars base.netloc_chars

theorem WebdavConfig.mount_cases :
    cfg.mount = rstripSlashes cfg.mountPath ∨
      rstripSlashes cfg.mountPath = [] ∧ cfg.mount = ['/'] := by
  have hne : cfg.mountPath ≠ [] := by
    intro hnil
    have hrooted := cfg.rooted
    rw [hnil] at hrooted
    exact Option.some_ne_none '/' hrooted.symm
  obtain ⟨n, hpath⟩ := eq_rstripSlashes_append cfg.mountPath
  rw [mount, if_neg hne]
  cases hstrip : rstripSlashes cfg.mountPath with
  | nil => exact .inr ⟨rfl, rfl⟩
  | cons c path =>
      have hrooted := cfg.rooted
      rw [hpath, hstrip] at hrooted
      exact .inl (if_pos hrooted)

/-- The path of a URL. -/
def WebdavConfig.urlPath (cfg : WebdavConfig) (remotePath : Text) : Text :=
  cfg.mount ++ quote isPathSafe ('/' :: lstripSlashes remotePath)

theorem WebdavConfig.mount_safe_chars : ∀ c ∈ cfg.mount, isPathSafe c = true := by
  rcases cfg.mount_cases with hmount | ⟨-, hmount⟩
  · intro c hc
    obtain ⟨n, hpath⟩ := eq_rstripSlashes_append cfg.mountPath
    rw [hmount] at hc
    exact cfg.mount_safe c (hpath ▸ List.mem_append_left _ hc)
  · rw [hmount]
    exact forall_mem_of_all (by decide)

theorem WebdavConfig.urlPath_plain : PlainPath (cfg.urlPath remotePath) where
  rooted := by
    have hmount : cfg.mount.head? = some '/' := by
      rw [mount]
      generalize rstripSlashes _ = path
      split_ifs with hrooted
      · exact hrooted
      · rfl
    rw [urlPath, List.head?_append, hmount, Option.some_or]
  plain := by
    intro c hc
    rcases List.mem_append.mp hc with hc | hc
    · exact (isPathSafe_plain (mount_safe_chars c hc)).1
    · exact quote_plain hc

theorem WebdavConfig.unquote_urlPath :
    unquote (cfg.urlPath remotePath) = cfg.mount ++ '/' :: lstripSlashes remotePath := by
  have hmount : quote isPathSafe cfg.mount = cfg.mount := by
    apply quote_of_safe
    exact fun c hc => ⟨(isPathSafe_plain (mount_safe_chars c hc)).2, mount_safe_chars c hc⟩
  have hpath : cfg.urlPath remotePath =
      quote isPathSafe (cfg.mount ++ '/' :: lstripSlashes remotePath) := by
    rw [quote_append, hmount, urlPath]
  rw [hpath, unquote_quote rfl]

/-- The server asks for the path that the URL was made of. -/
theorem requestPath_videoUrl (haccepted : checkNetloc checks (cfg.netloc base.netloc) = .ok ()) :
    ∃ path, cfg.requestPath checks (cfg.videoUrl base remotePath) = some path ∧
      components path = components remotePath := by
  have hurl : cfg.videoUrl base remotePath =
      (cfg.site base).origin ++ (cfg.urlPath remotePath ++ []) := by
    rw [WebdavConfig.videoUrl, BaseUrl.origin, WebdavConfig.site, WebdavConfig.urlPath,
      List.append_nil]
    simp only [List.append_assoc, List.cons_append]
  have hplain : PlainPath (cfg.urlPath remotePath) := cfg.urlPath_plain
  obtain ⟨parsed, hparse, hpath⟩ := urlparse_plain (cfg.site base) haccepted hplain (.inl rfl)
  have hrequest : cfg.requestPath checks (cfg.videoUrl base remotePath) =
      dropLiteral (rstripSlashes cfg.mountPath) (cfg.mount ++ '/' :: lstripSlashes remotePath) := by
    rw [WebdavConfig.requestPath, hurl, hparse]
    simp only [hpath, WebdavConfig.unquote_urlPath]
  rw [hrequest]
  rcases cfg.mount_cases with hmount | ⟨hroot, hmount⟩
  · refine ⟨'/' :: lstripSlashes remotePath, ?_, ?_⟩
    · rw [hmount, dropLiteral_append]
    · rw [components_slash, components_lstripSlashes]
  · refine ⟨'/' :: '/' :: lstripSlashes remotePath, ?_, ?_⟩
    · rw [hroot, hmount]
      rfl
    · rw [components_slash, components_slash, components_lstripSlashes]

end Requests

end SmartMedia.Strm
