import SmartMedia.Library.Parts
import SmartMedia.Media.AbsolutePaths

/-!
# What `validate_path` accepts

With a base directory or allowed directories the path is compared with them by prefixes of their
normal forms. This is containment, except at the roots `/` and `//`.
-/
namespace SmartMedia.Media
open PosixPath
open Parts (check_ok_iff)

section Accepted

/-- The basic checks pass and give this text, in whose normal form nothing leads up. Backslashes
count as slashes there. -/
structure Passes (value : Path) (fieldName : String) (maxLength : ℕ) (v : Path) : Prop where
  basic : validateBasicString (some value) fieldName maxLength = .ok v
  noDots : ['.', '.'] ∉ splitSlash ((normpath v).map fun c => if c = '\\' then '/' else c)

/-- The path is the directory or lies below it, component by component. -/
def Below (path directory : Path) : Prop :=
  initialSlashes path = initialSlashes directory ∧ components directory <+: components path

/-- The path lies below no directory but a root, and the test by prefixes does not see that, or
takes it to lie below another root. -/
def Astray (path : Path) (directories : List Path) : Prop :=
  (∀ d ∈ directories, Below path d → components d = []) ∧
    if initialSlashes path = 2 then
      "/".toList ∈ directories ∧ "//".toList ∉ directories ∨
        "/".toList ∉ directories ∧ "//".toList ∈ directories ∧ path ≠ "//".toList
    else "/".toList ∈ directories ∧ path ≠ "/".toList

variable {cwd value v : Path} {fieldName : String} {maxLength : ℕ} {allowAbsolute : Bool}

theorem not_any_null (h : validateBasicString (some value) fieldName maxLength = .ok v) :
    v.any (·.toNat = 0) = false := by
  rw [validateBasicString] at h
  split_ifs at h with hempty hlong hcontrol
  obtain rfl : strip value = v := by injection h
  rw [List.any_eq_false]
  intro c hc hnull
  apply hcontrol
  rw [List.any_eq_true]
  refine ⟨c, hc, ?_⟩
  rw [isControl, of_decide_eq_true hnull]
  rfl

theorem validatePath_ok_iff (baseDir : Option Path) (allowedDirs : Option (List Path)) :
    validatePath cwd (some value) fieldName maxLength baseDir allowedDirs allowAbsolute = .ok v ↔
      Passes value fieldName maxLength v ∧
        ¬(isabs v = true ∧ allowedDirs = none ∧ baseDir = none ∧ allowAbsolute = false) ∧
        (∀ base ∈ baseDir, isWithin (abspath cwd (join base v)) (abspath cwd base) = true) ∧
        ∀ dirs ∈ allowedDirs, ∃ dir ∈ dirs,
          isWithin (abspath cwd v) (abspath cwd dir) = true := by
  cases hbasic : validateBasicString (some value) fieldName maxLength with
  | error message =>
      constructor
      · intro h
        rw [validatePath, hbasic] at h
        cases h
      · rintro ⟨hpasses, -⟩
        rw [hpasses.basic] at hbasic
        cases hbasic
  | ok w =>
      have hpasses : Passes value fieldName maxLength v ↔ w = v ∧
          ['.', '.'] ∉ splitSlash ((normpath w).map fun c => if c = '\\' then '/' else c) := by
        constructor
        · rintro ⟨hv, hdots⟩
          obtain rfl : w = v := by
            rw [hbasic] at hv
            injection hv
          exact ⟨rfl, hdots⟩
        · rintro ⟨rfl, hdots⟩
          exact ⟨hbasic, hdots⟩
      rw [validatePath, hbasic, hpasses]
      dsimp only [bind, Except.bind, pure, Except.pure, throw, throwThe, MonadExceptOf.throw]
      rw [not_any_null hbasic]
      rw [check_ok_iff, check_ok_iff, check_ok_iff]
      cases baseDir with
      | none =>
          cases allowedDirs with
          | none => grind
          | some dirs =>
              rw [check_ok_iff, Bool.not_eq_false, List.any_eq_true]
              simp only [reduceCtorEq, Except.ok.injEq, Option.mem_def, Option.some.injEq, forall_eq']
              grind
      | some base =>
          rw [check_ok_iff, Bool.not_eq_false]
          cases allowedDirs with
          | none => grind
          | some dirs =>
              rw [check_ok_iff, Bool.not_eq_false, List.any_eq_true]
              simp only [reduceCtorEq, Except.ok.injEq, Option.mem_def, Option.some.injEq, forall_eq']
              grind

end Accepted

section Roots
variable {cwd path directory : Path} {directories : List Path}

/-- So the prefixes find a directory above, unless it is a root. -/
theorem isWithin_abspath_iff (hcwd : isabs cwd = true) (p q : Path) :
    isWithin (abspath cwd p) (abspath cwd q) = true ↔
      if components (abspath cwd q) = [] then
        initialSlashes (abspath cwd p) = 2 ∧ abspath cwd q = "/".toList ∨
          abspath cwd p = abspath cwd q
      else Below (abspath cwd p) (abspath cwd q) := by
  obtain ⟨k, cs, hk, hcs, hp⟩ := abspath_eq_rooted hcwd p
  obtain ⟨k', ds, hk', hds, hq⟩ := abspath_eq_rooted hcwd q
  have hroot : ("/".toList : Path) = rooted 1 [] := rfl
  rw [hp, hq, isWithin_rooted hcs hds hk hk', Below, components_rooted hcs, components_rooted hds,
    initialSlashes_rooted hcs hk, initialSlashes_rooted hds hk', hroot, rooted_inj hds (by simp),
    rooted_inj hcs hds]
  split_ifs with hnil
  · subst hnil
    simp
  · rfl

/-- A path lies below its own root only. -/
theorem below_root_iff (hcwd : isabs cwd = true) {q : Path} (p : Path)
    (hq : components (abspath cwd q) = []) :
    Below (abspath cwd p) (abspath cwd q) ↔
      abspath cwd q = if initialSlashes (abspath cwd p) = 2 then "//".toList else "/".toList := by
  obtain ⟨k, cs, hk, hcs, hp⟩ := abspath_eq_rooted hcwd p
  obtain ⟨k', ds, hk', hds, hroot⟩ := abspath_eq_rooted hcwd q
  rw [hroot, components_rooted hds] at hq
  subst hq
  have hslash : ("/".toList : Path) = rooted 1 [] := rfl
  have hslashes : ("//".toList : Path) = rooted 2 [] := rfl
  rw [hp, hroot, Below, components_rooted hcs, components_rooted hds, initialSlashes_rooted hcs hk,
    initialSlashes_rooted hds hk', and_iff_left List.nil_prefix, hslash, hslashes]
  rcases hk with rfl | rfl
  · rw [if_neg (by decide), rooted_inj hds (by simp), and_iff_left rfl, eq_comm]
  · rw [if_pos rfl, rooted_inj hds (by simp), and_iff_left rfl, eq_comm]

theorem astray_iff (hcwd : isabs cwd = true) (p : Path) (dirs : List Path) :
    Astray (abspath cwd p) (dirs.map (abspath cwd)) ↔
      ¬((∃ dir ∈ dirs, isWithin (abspath cwd p) (abspath cwd dir) = true) ↔
        ∃ dir ∈ dirs, Below (abspath cwd p) (abspath cwd dir)) := by
  obtain ⟨root, hroot⟩ : ∃ root,
      root = if initialSlashes (abspath cwd p) = 2 then "//".toList else "/".toList := ⟨_, rfl⟩
  have hcomponents : components root = [] := by
    rw [hroot]
    split_ifs <;> rfl
  have hbelow : ∀ dir, components (abspath cwd dir) = [] →
      (Below (abspath cwd p) (abspath cwd dir) ↔ abspath cwd dir = root) := fun dir hdir =>
    hroot ▸ below_root_iff hcwd p hdir
  simp only [isWithin_abspath_iff hcwd]
  rw [Astray, List.forall_mem_map]
  by_cases hinner : ∃ dir ∈ dirs, Below (abspath cwd p) (abspath cwd dir) ∧
      components (abspath cwd dir) ≠ []
  · obtain ⟨dir, hdir, hin, hne⟩ := hinner
    refine iff_of_false (fun h => hne (h.1 dir hdir hin)) ?_
    rw [not_not]
    refine iff_of_true ⟨dir, hdir, ?_⟩ ⟨dir, hdir, hin⟩
    rw [if_neg hne]
    exact hin
  push Not at hinner
  have hright : (∃ dir ∈ dirs, Below (abspath cwd p) (abspath cwd dir)) ↔
      root ∈ dirs.map (abspath cwd) := by
    rw [List.mem_map]
    constructor
    · rintro ⟨dir, hdir, hin⟩
      exact ⟨dir, hdir, (hbelow dir (hinner dir hdir hin)).mp hin⟩
    · rintro ⟨dir, hdir, heq⟩
      refine ⟨dir, hdir, (hbelow dir ?_).mpr heq⟩
      rw [heq, hcomponents]
  have htest : (∃ dir ∈ dirs, if components (abspath cwd dir) = [] then
        initialSlashes (abspath cwd p) = 2 ∧ abspath cwd dir = "/".toList ∨
          abspath cwd p = abspath cwd dir
      else Below (abspath cwd p) (abspath cwd dir)) ↔
      initialSlashes (abspath cwd p) = 2 ∧ "/".toList ∈ dirs.map (abspath cwd) ∨
        abspath cwd p = root ∧ root ∈ dirs.map (abspath cwd) := by
    simp only [List.mem_map]
    constructor
    · rintro ⟨dir, hdir, hin⟩
      split_ifs at hin with hnil
      · rcases hin with ⟨hslashes, heq⟩ | heq
        · exact .inl ⟨hslashes, dir, hdir, heq⟩
        · have hself : abspath cwd dir = root :=
            (hbelow dir hnil).mp (heq ▸ ⟨rfl, List.prefix_rfl⟩)
          exact .inr ⟨heq.trans hself, dir, hdir, hself⟩
      · exact absurd (hinner dir hdir hin) hnil
    · rintro (⟨hslashes, dir, hdir, heq⟩ | ⟨hpath, dir, hdir, heq⟩)
      · refine ⟨dir, hdir, ?_⟩
        rw [if_pos (heq ▸ rfl)]
        exact .inl ⟨hslashes, heq⟩
      · refine ⟨dir, hdir, ?_⟩
        rw [if_pos (heq ▸ hcomponents)]
        exact .inr (hpath.trans heq.symm)
  rw [htest, hright, and_iff_right fun dir hdir hin => hinner dir hdir hin]
  by_cases hslashes : initialSlashes (abspath cwd p) = 2
  · rw [if_pos hslashes] at hroot ⊢
    rw [hroot, and_iff_right hslashes]
    grind
  · rw [if_neg hslashes] at hroot ⊢
    rw [hroot, or_iff_right fun h => hslashes h.1]
    grind

/-- A path that passes the checks is accepted exactly when it lies below the base directory, and
below one of the allowed directories, unless it is lost at the root. -/
theorem validatePath_contains_iff (hcwd : isabs cwd = true) (value v : Path) (fieldName : String)
    (maxLength : ℕ) (allowAbsolute : Bool) :
    (∀ baseDir : Path,
      (validatePath cwd (some value) fieldName maxLength (some baseDir) none allowAbsolute = .ok v ↔
        Passes value fieldName maxLength v ∧
          Below (abspath cwd (join baseDir v)) (abspath cwd baseDir)) ↔
      (Passes value fieldName maxLength v →
        ¬Astray (abspath cwd (join baseDir v)) [abspath cwd baseDir])) ∧
    ∀ allowedDirs : List Path,
      (validatePath cwd (some value) fieldName maxLength none (some allowedDirs) allowAbsolute =
          .ok v ↔
        Passes value fieldName maxLength v ∧
          ∃ dir ∈ allowedDirs, Below (abspath cwd v) (abspath cwd dir)) ↔
      (Passes value fieldName maxLength v →
        ¬Astray (abspath cwd v) (allowedDirs.map (abspath cwd))) := by
  constructor
  · intro baseDir
    have hastray := astray_iff hcwd (join baseDir v) [baseDir]
    simp only [List.map_cons, List.map_nil, List.mem_singleton, exists_eq_left] at hastray
    rw [validatePath_ok_iff, hastray, not_not]
    simp only [reduceCtorEq, and_false, false_and, not_false_eq_true, true_and, and_true, Option.mem_def,
      Option.some.injEq, forall_eq', IsEmpty.forall_iff, implies_true, and_congr_right_iff]
  · intro allowedDirs
    have hastray := astray_iff hcwd v allowedDirs
    rw [validatePath_ok_iff, hastray, not_not]
    simp only [reduceCtorEq, and_false, false_and, not_false_eq_true, true_and, Option.mem_def,
      Option.some.injEq, forall_eq', IsEmpty.forall_iff, implies_true, and_congr_right_iff]

/-- Below a directory that is no root, the path is accepted. -/
theorem movies_contained :
    (validatePath "/".toList (some "movies".toList) "path" maxPathLength (some "/srv".toList) none
        false = .ok "movies".toList ↔
      Passes "movies".toList "path" maxPathLength "movies".toList ∧
        Below "/srv/movies".toList "/srv".toList) ↔
    (Passes "movies".toList "path" maxPathLength "movies".toList →
      ¬Astray "/srv/movies".toList ["/srv".toList]) :=
  (validatePath_contains_iff (show isabs "/".toList = true by decide) "movies".toList
    "movies".toList "path" maxPathLength false).1 "/srv".toList

/-- Below `/` it is refused: what it is compared with begins with two slashes. -/
theorem movies_refused :
    Passes "movies".toList "path" maxPathLength "movies".toList ∧
      Below (abspath "/".toList (join "/".toList "movies".toList)) (abspath "/".toList "/".toList) ∧
      validatePath "/".toList (some "movies".toList) "path" maxPathLength (some "/".toList) none
        false = .error "path is outside of allowed base directory" := by
  refine ⟨⟨by decide, by decide⟩, ⟨by decide, by decide⟩, by decide⟩

end Roots

end SmartMedia.Media
