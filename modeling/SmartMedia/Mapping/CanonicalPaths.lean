import SmartMedia.Library.Trim
import SmartMedia.Mapping.MediaMappingService
import SmartMedia.Strm.WebdavScan

/-!
# Where the normalised paths are canonical

`normalize_source_path`, which makes the keys of the mapping table, and `_normalize_remote_path`,
which names the folder of a scan. Slashes alone are normalised to nothing, and a blank in front of
the slashes at the end is kept until the path is normalised again.
-/
namespace SmartMedia.Mapping
open Media Strm Trim

/-- What a normalised path promises. -/
structure Canonical (normalize : Path → Path) (path : Path) : Prop where
  rooted : (normalize path).head? = some '/'
  ends : (normalize path).getLast? = some '/' → normalize path = ['/']
  again : normalize (normalize path) = normalize path

/-- `replace("\\", "/")`. -/
def toSlashes (path : Path) : Path := path.map fun c => if c = '\\' then '/' else c

/-- Two slashes or more, and around them nothing but blanks. -/
def SlashRun (path : Path) : Prop :=
  ∃ before slashes after, path = before ++ (slashes ++ after) ∧ (∀ c ∈ before, isSpace c = true) ∧
    (∀ c ∈ slashes, c = '/') ∧ (∀ c ∈ after, isSpace c = true) ∧ 2 ≤ slashes.length

/-- A blank in front of the slashes at the end, behind something else; blanks may follow. -/
def BlankBeforeSlashes (path : Path) : Prop :=
  ∃ front slashes after, path = front ++ (slashes ++ after) ∧
    (∃ c ∈ front, isSpace c = false) ∧ (∃ c ∈ front.getLast?, isSpace c = true) ∧
    slashes ≠ [] ∧ (∀ c ∈ slashes, c = '/') ∧ ∀ c ∈ after, isSpace c = true

section Stripped
variable {path : Path}

theorem isSpace_slash : isSpace '/' = false := by decide

theorem strip_eq_trim (path : Path) : strip path = trim isSpace path := rfl

theorem rstripSlashes_eq (path : Path) : rstripSlashes path = path.rdropWhile (· = '/') := rfl

theorem rstripSlashes_append {slashes : Path} (h : ∀ c ∈ slashes, c = '/') :
    rstripSlashes (path ++ slashes) = rstripSlashes path :=
  rdropWhile_append fun c hc => decide_eq_true (h c hc)

theorem rstripSlashes_eq_self (h : ∀ c ∈ path.getLast?, c ≠ '/') : rstripSlashes path = path :=
  rdropWhile_eq_self fun c hc => decide_eq_false (h c hc)

theorem getLast?_rstripSlashes {c : Char} (hc : c ∈ (rstripSlashes path).getLast?) : c ≠ '/' :=
  of_decide_eq_false (getLast?_rdropWhile c hc)

theorem rstripSlashes_eq_nil_iff : rstripSlashes path = [] ↔ ∀ c ∈ path, c = '/' := by
  simp only [rstripSlashes_eq, List.rdropWhile_eq_nil_iff, decide_eq_true_eq]

theorem exists_eq_rstripSlashes_append (path : Path) :
    ∃ slashes, path = rstripSlashes path ++ slashes ∧ ∀ c ∈ slashes, c = '/' := by
  refine ⟨path.rtakeWhile (· = '/'), ?_, fun c hc => ?_⟩
  · rw [rstripSlashes_eq, List.rdropWhile_append_rtakeWhile]
  · exact of_decide_eq_true (List.mem_rtakeWhile_imp (p := fun c => decide (c = '/')) hc)

theorem slashRun_iff :
    SlashRun path ↔ (∀ c ∈ strip path, c = '/') ∧ 2 ≤ (strip path).length := by
  constructor
  · rintro ⟨before, slashes, after, rfl, hbefore, hslashes, hafter, htwo⟩
    have hstrip : strip (before ++ (slashes ++ after)) = slashes := by
      apply trim_append hbefore hafter
      · intro c hc
        rw [hslashes c (List.mem_of_mem_head? hc), isSpace_slash]
      · intro c hc
        rw [hslashes c (List.mem_of_mem_getLast? hc), isSpace_slash]
    rw [hstrip]
    exact ⟨hslashes, htwo⟩
  · rintro ⟨hslashes, htwo⟩
    obtain ⟨before, after, hpath, hbefore, hafter⟩ := exists_eq_append_trim isSpace path
    exact ⟨before, strip path, after, hpath, hbefore, hslashes, hafter, htwo⟩

/-- The blank is what the path ends in without its slashes. -/
theorem blankBeforeSlashes_iff :
    BlankBeforeSlashes path ↔ ∃ c ∈ (rstripSlashes (strip path)).getLast?, isSpace c = true := by
  constructor
  · rintro ⟨front, slashes, after, rfl, ⟨c, hc, hspace⟩, ⟨blank, hlast, hblank⟩, hne, hslashes,
      hafter⟩
    -- nothing else is stripped in front
    have hcore : front.dropWhile isSpace ≠ [] := by
      rw [Ne, List.dropWhile_eq_nil_iff]
      intro hall
      rw [hall c hc] at hspace
      cases hspace
    have hstrip : strip (front ++ (slashes ++ after)) = front.dropWhile isSpace ++ slashes := by
      conv_lhs => rw [← List.takeWhile_append_dropWhile (p := isSpace) (l := front),
        List.append_assoc, ← List.append_assoc (front.dropWhile isSpace)]
      refine trim_append (fun d hd => List.all_eq_true.mp List.all_takeWhile d hd) hafter ?_ ?_
      · intro d hd
        rw [List.head?_append_of_ne_nil _ hcore] at hd
        exact head?_dropWhile d hd
      · intro d hd
        rw [List.getLast?_append_of_ne_nil _ hne] at hd
        rw [hslashes d (List.mem_of_mem_getLast? hd), isSpace_slash]
    have hkept : blank ∈ (front.dropWhile isSpace).getLast? := by
      rw [← List.takeWhile_append_dropWhile (p := isSpace) (l := front),
        List.getLast?_append_of_ne_nil _ hcore] at hlast
      exact hlast
    refine ⟨blank, ?_, hblank⟩
    rw [hstrip, rstripSlashes_append hslashes, rstripSlashes_eq_self]
    · exact hkept
    · rintro d hd rfl
      rw [Option.mem_unique hkept hd, isSpace_slash] at hblank
      cases hblank
  · rintro ⟨blank, hlast, hblank⟩
    obtain ⟨before, after, hpath, -, hafter⟩ := exists_eq_append_trim isSpace path
    obtain ⟨slashes, hstrip, hslashes⟩ := exists_eq_rstripSlashes_append (strip path)
    have hne : rstripSlashes (strip path) ≠ [] := by
      intro hnil
      rw [hnil] at hlast
      cases hlast
    refine ⟨before ++ rstripSlashes (strip path), slashes, after, ?_, ?_, ⟨blank, ?_, hblank⟩, ?_,
      hslashes, hafter⟩
    · rw [List.append_assoc, ← List.append_assoc (rstripSlashes _), ← hstrip]
      exact hpath
    · obtain ⟨c, rest, hcons⟩ := List.exists_cons_of_ne_nil hne
      refine ⟨c, ?_, head?_trim (p := isSpace) (l := path) c ?_⟩
      · rw [hcons]
        exact List.mem_append_right _ List.mem_cons_self
      · rw [← strip_eq_trim, hstrip, hcons]
        rfl
    · rw [List.getLast?_append_of_ne_nil _ hne]
      exact hlast
    · rintro rfl
      rw [List.append_nil] at hstrip
      rw [← hstrip] at hlast
      rw [getLast?_trim blank hlast] at hblank
      cases hblank

end Stripped

section Rooted
variable {path : Path}

/-- With a slash in front. -/
def rooted (path : Path) : Path := if path.head? = some '/' then path else '/' :: path

theorem head?_rooted (path : Path) : (rooted path).head? = some '/' := by
  rw [rooted]
  split_ifs with h
  · exact h
  · rfl

theorem rooted_eq_self (h : path.head? = some '/') : rooted path = path := if_pos h

theorem exists_rooted_eq_append (path : Path) :
    ∃ lead, rooted path = lead ++ path ∧ ∀ c ∈ lead, c = '/' := by
  rw [rooted]
  split_ifs with h
  · exact ⟨[], rfl, fun c hc => absurd hc List.not_mem_nil⟩
  · exact ⟨['/'], rfl, fun c hc => List.mem_singleton.mp hc⟩

theorem rooted_append (h : path ≠ []) (slashes : Path) :
    rooted (path ++ slashes) = rooted path ++ slashes := by
  rw [rooted, rooted, List.head?_append_of_ne_nil path h]
  split_ifs with hhead
  · rfl
  · rfl

theorem getLast?_rooted (h : path ≠ []) : (rooted path).getLast? = path.getLast? := by
  obtain ⟨lead, hrooted, -⟩ := exists_rooted_eq_append path
  rw [hrooted, List.getLast?_append_of_ne_nil lead h]

theorem rstripSlashes_rooted_eq (h : ∃ c ∈ path, c ≠ '/') :
    rstripSlashes (rooted path) = rooted (rstripSlashes path) := by
  obtain ⟨slashes, hpath, hslashes⟩ := exists_eq_rstripSlashes_append path
  have hne : rstripSlashes path ≠ [] := by
    obtain ⟨c, hc, hother⟩ := h
    exact fun hnil => hother (rstripSlashes_eq_nil_iff.mp hnil c hc)
  conv_lhs => rw [hpath]
  rw [rooted_append hne, rstripSlashes_append hslashes, rstripSlashes_eq_self]
  intro c hc
  rw [getLast?_rooted hne] at hc
  exact getLast?_rstripSlashes hc

theorem rooted_eq_slash_iff : rooted path = ['/'] ↔ path = [] ∨ path = ['/'] := by
  rw [rooted]
  split_ifs with h
  · refine ⟨.inr, fun hpath => hpath.resolve_left ?_⟩
    rintro rfl
    cases h
  · refine ⟨fun hcons => .inl (List.cons.inj hcons).2, ?_⟩
    rintro (rfl | rfl)
    · rfl
    · exact absurd rfl h

end Rooted

section RemotePaths
variable {path : Path}

theorem normalizeRemotePath_eq (path : Path) :
    normalizeRemotePath path =
      if rooted (strip path) = ['/'] then ['/'] else rstripSlashes (rooted (strip path)) := by
  have hdef : normalizeRemotePath path =
      if strip path = [] then ['/']
      else if rooted (strip path) ≠ ['/'] then rstripSlashes (rooted (strip path))
      else rooted (strip path) := rfl
  rw [hdef]
  by_cases hroot : rooted (strip path) = ['/']
  · rw [if_pos hroot, if_neg (not_not_intro hroot), hroot, ite_self]
  · have hnil : strip path ≠ [] := fun h => hroot (rooted_eq_slash_iff.mpr (.inl h))
    rw [if_neg hnil, if_pos hroot, if_neg hroot]

/-- One slash, or nothing. -/
theorem normalizeRemotePath_of_root (hslashes : ∀ c ∈ strip path, c = '/')
    (h : ¬SlashRun path) : normalizeRemotePath path = ['/'] := by
  rw [normalizeRemotePath_eq, if_pos]
  rw [slashRun_iff, not_and, Nat.not_le] at h
  rw [rooted_eq_slash_iff]
  cases hstrip : strip path with
  | nil => exact .inl rfl
  | cons c rest =>
      have hlength := h hslashes
      rw [hstrip, List.length_cons] at hlength
      have hrest : rest = [] := List.length_eq_zero_iff.mp (by omega)
      rw [hstrip] at hslashes
      rw [hslashes c List.mem_cons_self, hrest]
      exact .inr rfl

theorem normalizeRemotePath_of_slashRun (h : SlashRun path) : normalizeRemotePath path = [] := by
  obtain ⟨hslashes, htwo⟩ := slashRun_iff.mp h
  rw [normalizeRemotePath_eq, if_neg, rstripSlashes_eq_nil_iff]
  · intro c hc
    obtain ⟨lead, hrooted, hlead⟩ := exists_rooted_eq_append (strip path)
    rw [hrooted, List.mem_append] at hc
    exact hc.elim (hlead c) (hslashes c)
  · rw [rooted_eq_slash_iff]
    rintro (hstrip | hstrip)
    · rw [hstrip] at htwo
      cases htwo
    · rw [hstrip] at htwo
      exact absurd htwo (by decide)

theorem normalizeRemotePath_of_other (h : ∃ c ∈ strip path, c ≠ '/') :
    normalizeRemotePath path = rooted (rstripSlashes (strip path)) := by
  rw [normalizeRemotePath_eq, if_neg, rstripSlashes_rooted_eq h]
  obtain ⟨c, hc, hother⟩ := h
  rw [rooted_eq_slash_iff]
  rintro (hstrip | hstrip)
  · rw [hstrip] at hc
    cases hc
  · rw [hstrip, List.mem_singleton] at hc
    exact hother hc

/-- A path that is rooted and ends in neither a slash nor a blank is normalised already. -/
theorem normalizeRemotePath_eq_self (hhead : path.head? = some '/')
    (hlast : ∀ c ∈ path.getLast?, c ≠ '/' ∧ isSpace c = false) (hne : path ≠ ['/']) :
    normalizeRemotePath path = path := by
  have hstrip : strip path = path := by
    refine trim_eq_self (fun c hc => ?_) fun c hc => (hlast c hc).2
    rw [← Option.some.inj (hhead.symm.trans hc), isSpace_slash]
  rw [normalizeRemotePath_eq, hstrip, rooted_eq_self hhead, if_neg hne,
    rstripSlashes_eq_self fun c hc => (hlast c hc).1]

/-- A blank at the end is stripped, so such a path is not left as it is. -/
theorem normalizeRemotePath_ne_self {blank : Char} (hhead : path.head? = some '/')
    (hlast : blank ∈ path.getLast?) (hblank : isSpace blank = true) :
    normalizeRemotePath path ≠ path := by
  intro heq
  have hslash : (strip path).head? = some '/' := mem_head?_trim hhead isSpace_slash
  rw [normalizeRemotePath_eq, rooted_eq_self hslash] at heq
  split_ifs at heq with hroot
  · rw [← heq] at hlast
    rw [← show '/' = blank from Option.some.inj hlast, isSpace_slash] at hblank
    cases hblank
  · have hbegins : (rstripSlashes (strip path)).Sublist (strip path) :=
      (List.rdropWhile_prefix _ _).sublist
    rw [heq] at hbegins
    exact trim_ne_self hlast hblank ((trim_sublist isSpace path).antisymm hbegins)

theorem canonical_normalizeRemotePath_iff :
    Canonical normalizeRemotePath path ↔ ¬SlashRun path ∧ ¬BlankBeforeSlashes path := by
  by_cases hrun : SlashRun path
  · refine ⟨fun h => ?_, fun h => absurd hrun h.1⟩
    have hrooted := h.rooted
    rw [normalizeRemotePath_of_slashRun hrun] at hrooted
    cases hrooted
  by_cases hslashes : ∀ c ∈ strip path, c = '/'
  · have hroot := normalizeRemotePath_of_root hslashes hrun
    have hblank : ¬BlankBeforeSlashes path := by
      rw [blankBeforeSlashes_iff, rstripSlashes_eq_nil_iff.mpr hslashes]
      rintro ⟨c, hc, -⟩
      cases hc
    refine ⟨fun _ => ⟨hrun, hblank⟩, fun _ => ⟨?_, fun _ => hroot, ?_⟩⟩
    · rw [hroot]
      rfl
    · rw [hroot]
      decide
  · push Not at hslashes
    have hother := normalizeRemotePath_of_other hslashes
    have hne : rstripSlashes (strip path) ≠ [] := by
      obtain ⟨c, hc, hslash⟩ := hslashes
      exact fun hnil => hslash (rstripSlashes_eq_nil_iff.mp hnil c hc)
    have hlast := getLast?_rooted hne
    have hend : ∀ c ∈ (normalizeRemotePath path).getLast?, c ≠ '/' := by
      intro c hc
      rw [hother, hlast] at hc
      exact getLast?_rstripSlashes hc
    have hhead : (normalizeRemotePath path).head? = some '/' := by
      rw [hother]
      exact head?_rooted _
    rw [blankBeforeSlashes_iff, ← hlast, ← hother]
    constructor
    · rintro ⟨-, -, hagain⟩
      refine ⟨hrun, ?_⟩
      rintro ⟨blank, hblank, hspace⟩
      exact normalizeRemotePath_ne_self hhead hblank hspace hagain
    · rintro ⟨-, hblank⟩
      refine ⟨hhead, fun h => absurd rfl (hend '/' h), normalizeRemotePath_eq_self hhead ?_ ?_⟩
      · intro c hc
        exact ⟨hend c hc, Bool.eq_false_iff.mpr fun hspace => hblank ⟨c, hc, hspace⟩⟩
      · intro hroot
        exact hend '/' (by rw [hroot]; rfl) rfl

end RemotePaths

section SourcePaths
variable {path : Path}

theorem strip_toSlashes (path : Path) : strip (toSlashes path) = toSlashes (strip path) := by
  apply trim_map
  intro c
  split_ifs with hc
  · rw [hc]
    decide
  · rfl

/-- The two are the same but for the separators. -/
theorem normalizeSourcePath_eq (path : Path) :
    normalizeSourcePath (some path) = normalizeRemotePath (toSlashes path) := by
  have hdef : normalizeSourcePath (some path) =
      if toSlashes (strip path) = [] then ['/']
      else if 1 < (rooted (toSlashes (strip path))).length then
        rstripSlashes (rooted (toSlashes (strip path)))
      else rooted (toSlashes (strip path)) := rfl
  rw [hdef, normalizeRemotePath_eq, strip_toSlashes]
  generalize toSlashes (strip path) = raw
  by_cases hroot : rooted raw = ['/']
  · have hshort : ¬1 < (rooted raw).length := by
      rw [hroot]
      decide
    rw [if_pos hroot, if_neg hshort, hroot, ite_self]
  · have hnil : raw ≠ [] := fun h => hroot (rooted_eq_slash_iff.mpr (.inl h))
    have hlong : 1 < (rooted raw).length := by
      obtain ⟨rest, hcons⟩ := List.head?_eq_some_iff.mp (head?_rooted raw)
      rw [hcons] at hroot ⊢
      cases rest with
      | nil => exact absurd rfl hroot
      | cons c rest => simp only [List.length_cons]; omega
    rw [if_neg hnil, if_pos hlong, if_neg hroot]

theorem mem_normalizeRemotePath {c : Char} (hc : c ∈ normalizeRemotePath path) :
    c = '/' ∨ c ∈ path := by
  rw [normalizeRemotePath_eq] at hc
  split_ifs at hc
  · exact .inl (List.mem_singleton.mp hc)
  · obtain ⟨lead, hrooted, hlead⟩ := exists_rooted_eq_append (strip path)
    have hmem := (List.rdropWhile_prefix _ _).subset hc
    rw [hrooted, List.mem_append] at hmem
    exact hmem.imp (hlead c) fun hmem => (trim_sublist isSpace path).subset hmem

theorem toSlashes_eq_self (h : '\\' ∉ path) : toSlashes path = path := by
  have hsame : path.map (fun c => if c = '\\' then '/' else c) = path.map id := by
    refine List.map_congr_left fun c hc => if_neg ?_
    rintro rfl
    exact h hc
  rw [toSlashes, hsame, List.map_id]

theorem not_mem_toSlashes (path : Path) : '\\' ∉ toSlashes path := by
  intro hc
  obtain ⟨c, -, hslash⟩ := List.mem_map.mp hc
  split_ifs at hslash with hback
  · cases hslash
  · exact hback hslash

theorem canonical_normalizeSourcePath_iff :
    Canonical (fun path => normalizeSourcePath (some path)) path ↔
      Canonical normalizeRemotePath (toSlashes path) := by
  have hagain : toSlashes (normalizeRemotePath (toSlashes path)) =
      normalizeRemotePath (toSlashes path) := by
    apply toSlashes_eq_self
    intro hc
    rcases mem_normalizeRemotePath hc with hslash | hmem
    · cases hslash
    · exact not_mem_toSlashes path hmem
  constructor
  · rintro ⟨hrooted, hends, heq⟩
    simp only [normalizeSourcePath_eq, hagain] at hrooted hends heq
    exact ⟨hrooted, hends, heq⟩
  · rintro ⟨hrooted, hends, heq⟩
    rw [← normalizeSourcePath_eq] at hrooted hends
    refine ⟨hrooted, hends, ?_⟩
    simp only [normalizeSourcePath_eq, hagain]
    exact heq

end SourcePaths

section Keys
variable {path : Path}

/-- The paths that the two normalise to a canonical one. -/
theorem canonical_iff (path : Path) :
    (Canonical (fun path => normalizeSourcePath (some path)) path ↔
      ¬SlashRun (toSlashes path) ∧ ¬BlankBeforeSlashes (toSlashes path)) ∧
    (Canonical normalizeRemotePath path ↔ ¬SlashRun path ∧ ¬BlankBeforeSlashes path) :=
  ⟨canonical_normalizeSourcePath_iff.trans canonical_normalizeRemotePath_iff,
    canonical_normalizeRemotePath_iff⟩

/-- Two slashes are normalised to nothing. -/
theorem slashes_not_canonical :
    ¬Canonical (fun path => normalizeSourcePath (some path)) "//".toList ∧
      ¬Canonical normalizeRemotePath "//".toList := by
  refine ⟨fun h => ?_, fun h => ?_⟩
  · exact absurd h.rooted (by decide)
  · exact absurd h.rooted (by decide)

/-- Blanks around a path, slashes behind it and the slash in front make no difference. -/
theorem normalizeRemotePath_spelling {before slashes after : Path}
    (hbefore : ∀ c ∈ before, isSpace c = true) (hslashes : ∀ c ∈ slashes, c = '/')
    (hafter : ∀ c ∈ after, isSpace c = true) (hother : ∃ c ∈ path, c ≠ '/')
    (hhead : ∀ c ∈ path.head?, isSpace c = false)
    (hlast : ∀ c ∈ path.getLast?, c ≠ '/' ∧ isSpace c = false) :
    normalizeRemotePath (before ++ (path ++ slashes ++ after)) = rooted path := by
  have hne : path ≠ [] := by
    obtain ⟨c, hc, -⟩ := hother
    exact List.ne_nil_of_mem hc
  have hstrip : strip (before ++ (path ++ slashes ++ after)) = path ++ slashes := by
    refine trim_append hbefore hafter (fun c hc => ?_) fun c hc => ?_
    · rw [List.head?_append_of_ne_nil path hne] at hc
      exact hhead c hc
    · rw [Option.mem_def, List.getLast?_append] at hc
      cases hend : slashes.getLast? with
      | none =>
          rw [hend, Option.none_or] at hc
          exact (hlast c hc).2
      | some d =>
          rw [hend, Option.some_or] at hc
          rw [← Option.some.inj hc, hslashes d (List.mem_of_mem_getLast? hend), isSpace_slash]
  rw [normalizeRemotePath_of_other, hstrip, rstripSlashes_append hslashes,
    rstripSlashes_eq_self fun c hc => (hlast c hc).1]
  obtain ⟨c, hc, hslash⟩ := hother
  refine ⟨c, ?_, hslash⟩
  rw [hstrip]
  exact List.mem_append_left slashes hc

/-- The source path of a row has the key that the row is found under. -/
theorem GetOrCreate.normalizedSourcePath_stored (c : GetOrCreate)
    (hrun : ¬SlashRun (toSlashes c.sourcePath))
    (hblank : ¬BlankBeforeSlashes (toSlashes c.sourcePath)) :
    { c with sourcePath := c.normalizedSourcePath }.normalizedSourcePath =
      c.normalizedSourcePath :=
  (canonical_normalizeSourcePath_iff.mpr
    (canonical_normalizeRemotePath_iff.mpr ⟨hrun, hblank⟩)).again

/-- The path that a scan goes by leads to the same scan. -/
theorem scanDirectory_normalized (tree : RemoteTree) (html5 : Path → Option Path)
    (options : ScanOptions) (hrun : ¬SlashRun path) (hblank : ¬BlankBeforeSlashes path) :
    scanDirectory tree html5 options (normalizeRemotePath path) =
      scanDirectory tree html5 options path := by
  have hagain := (canonical_normalizeRemotePath_iff.mpr ⟨hrun, hblank⟩).again
  rw [scanDirectory, scanDirectory, hagain]

end Keys

end SmartMedia.Mapping
