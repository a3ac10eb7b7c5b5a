import SmartMedia.Storage.Calls
import SmartMedia.Storage.PathSecurity

/-!
# What checked paths lead to

A checked path leads through no link and lies in an allowed directory. So renaming stays there, but for
the directories above an allowed one that is not there yet.
-/
namespace SmartMedia.Storage
open Media PosixPath StateProgram

variable {β : Type} {sys : System β} {t t' : Tree β}

section Allowed
variable {cs ds : List Path} {k : ℕ}

/-- The last component does not end with a slash. -/
theorem getLast_joinSlash (hcs : ∀ c ∈ cs, Media.Plain c) : (joinSlash cs).getLast? ≠ some '/' := by
  induction cs using List.reverseRecOn with
  | nil => simp [joinSlash]
  | append_singleton cs c ih =>
      have hc := hcs c (List.mem_append_right _ List.mem_cons_self)
      have hlast : c.getLast? ≠ some '/' := fun h => hc.noSlash (List.mem_of_getLast? h)
      by_cases hnil : cs = []
      · rw [hnil, List.nil_append, joinSlash_singleton]
        exact hlast
      · rw [joinSlash_append hnil (List.cons_ne_nil c []), joinSlash_singleton, List.getLast?_append,
          List.getLast?_cons]
        obtain ⟨last, hsome⟩ := Option.ne_none_iff_exists'.mp
          (mt List.getLast?_eq_none_iff.mp hc.nonempty)
        rw [hsome] at hlast ⊢
        simpa using hlast

theorem getLast_rooted (hcs : ∀ c ∈ cs, Media.Plain c) (hne : cs ≠ []) (k : ℕ) :
    (rooted k cs).getLast? ≠ some '/' := by
  rw [rooted, List.getLast?_append]
  obtain ⟨last, hsome⟩ := Option.ne_none_iff_exists'.mp
    (mt List.getLast?_eq_none_iff.mp (joinSlash_ne_nil hcs hne))
  rw [hsome, Option.some_or, ← hsome]
  exact getLast_joinSlash hcs

theorem rstripSep_append_slash {p : Path} (h : p.getLast? ≠ some '/') : rstripSep (p ++ ['/']) = p := by
  rw [rstripSep, List.reverse_append, List.reverse_singleton, List.singleton_append,
    List.dropWhile_cons_of_pos (by simp)]
  have hdrop : p.reverse.dropWhile (· = '/') = p.reverse := by
    rw [List.getLast?_eq_head?_reverse] at h
    cases hp : p.reverse with
    | nil => rfl
    | cons c rest =>
        rw [hp] at h
        rw [List.dropWhile_cons_of_neg]
        simpa using h
  rw [hdrop, List.reverse_reverse]

theorem isabs_pathText (p : List FileName) : isabs (pathText p) = true := rfl

theorem plain_chars (p : List FileName) : ∀ c ∈ p.map (·.chars), Media.Plain c := by
  intro c hc
  obtain ⟨name, -, rfl⟩ := List.mem_map.mp hc
  exact name.plain

/-- What is allowed lies below the directory, component by component. -/
theorem components_of_isAllowed {cwd p : List FileName} {allowedDir : Path}
    (h : isAllowed cwd (pathText p) allowedDir = true) :
    components (abspath (pathText cwd) allowedDir) <+: p.map (·.chars) := by
  obtain ⟨k, ds, hk, hds, heq⟩ := abspath_eq_rooted (isabs_pathText cwd) allowedDir
  rw [isAllowed, heq] at h
  rw [heq, components_rooted hds]
  by_cases hne : ds = []
  · rw [hne]
    exact List.nil_prefix
  · have hlast := getLast_rooted hds hne k
    rw [if_neg hlast, rstripSep_append_slash hlast] at h
    have hwithin := (isWithin_rooted (plain_chars p) hds (.inl rfl) hk).mp h
    rw [if_neg hne] at hwithin
    exact hwithin.2

end Allowed

section Checked
variable {env : Surroundings} {filePath : Path} {allowedDirs : Option (List Path)}
  {checkExists allowSymlinks : Bool} {r p q src dst : List FileName}

/-- The allowed directories, as components. -/
def allowedComponents (env : Surroundings) (allowedDirs : Option (List Path)) : List (List Path) :=
  (allowedDirs.getD (getAllowedDirectories env)).map fun dir =>
    components (abspath (pathText env.cwd) dir)

/-- The path is one of the directories or lies below it. -/
def Inside (dirs : List (List Path)) (p : List FileName) : Prop := ∃ dir ∈ dirs, dir <+: p.map (·.chars)

/-- The path is on the way to one of the directories. -/
def Above (dirs : List (List Path)) (p : List FileName) : Prop := ∃ dir ∈ dirs, p.map (·.chars) <+: dir

variable {dirs : List (List Path)}

theorem Inside.mono (h : Inside dirs p) (hpq : p <+: q) : Inside dirs q := by
  obtain ⟨dir, hdir, hp⟩ := h
  exact ⟨dir, hdir, hp.trans (hpq.map _)⟩

/-- What is on the way to something inside is inside, or on the way to a directory. -/
theorem Inside.of_prefix (h : Inside dirs q) (hpq : p <+: q) : Inside dirs p ∨ Above dirs p := by
  obtain ⟨dir, hdir, hq⟩ := h
  rcases List.prefix_or_prefix_of_prefix hq (hpq.map (·.chars)) with h | h
  · exact .inl ⟨dir, hdir, h⟩
  · exact .inr ⟨dir, hdir, h⟩

/-- What passes the check leads through no link and is inside. -/
theorem validateFilePath_ok
    (h : validateFilePath sys t env filePath allowedDirs checkExists allowSymlinks = .ok r) :
    Plain t r ∧ Inside (allowedComponents env allowedDirs) r := by
  rw [validateFilePath] at h
  dsimp only [bind, Except.bind, pure, Except.pure, throw, throwThe, MonadExceptOf.throw] at h
  split_ifs at h with hempty hdirs hlink
  split at h
  · cases h
  · next realPath hreal =>
      split_ifs at h with hallowed hmissing
      obtain rfl := Except.ok.inj h
      rw [Bool.not_eq_false, List.any_eq_true] at hallowed
      obtain ⟨dir, hdir, hwithin⟩ := hallowed
      exact ⟨realpath_plain plain_nil hreal, _, List.mem_map_of_mem hdir,
        components_of_isAllowed hwithin⟩

theorem validated_cases (sys : System β) (env : Surroundings) (allowedDirs : Option (List Path))
    (filePath : Path) (checkExists allowSymlinks : Bool) (t : Tree β) :
    (∃ e, validated sys env allowedDirs filePath checkExists allowSymlinks t = .error e t) ∨
      ∃ r, validated sys env allowedDirs filePath checkExists allowSymlinks t = .ok r t ∧
        Plain t r ∧ Inside (allowedComponents env allowedDirs) r := by
  rw [validated]
  cases h : validateFilePath sys t env filePath allowedDirs checkExists allowSymlinks with
  | error e => exact .inl ⟨_, rfl⟩
  | ok r => exact .inr ⟨r, rfl, validateFilePath_ok h⟩

end Checked

section Renaming
variable {env : Surroundings} {allowedDirs : Option (List Path)} {dirs : List (List Path)}
  {p q r src dst : List FileName}

/-- Only paths inside differ, and there are directories, or what was at a path inside; but for
directories that were missing on the way to an allowed one. -/
def KeepsInside (dirs : List (List Path)) (t t' : Tree β) : Prop :=
  ∀ p, t'.lookup p = t.lookup p ∨
    Inside dirs p ∧ (t'.lookup p = none ∨ t'.lookup p = some .dir ∨
      ∃ q, Inside dirs q ∧ t'.lookup p = t.lookup q) ∨
    Above dirs p ∧ t.lookup p = none ∧ t'.lookup p = some .dir

theorem KeepsInside.refl (dirs : List (List Path)) (t : Tree β) : KeepsInside dirs t t :=
  fun _ => .inl rfl

theorem AddsDirs.keepsInside (h : AddsDirs q t t') (hq : Inside dirs q) : KeepsInside dirs t t' := by
  intro p
  rcases h p with heq | ⟨hnone, hdir, hpq⟩
  · exact .inl heq
  · rcases hq.of_prefix hpq with hp | hp
    · exact .inr (.inl ⟨hp, .inr (.inl hdir)⟩)
    · exact .inr (.inr ⟨hp, hnone, hdir⟩)

/-- A rename after directories were made. -/
theorem KeepsInside.rename {t₁ : Tree β} {dir : List FileName} {n : FileName}
    (h : AddsDirs (dir ++ [n]) t t₁) (hsrc : Inside dirs src) (hdst : Inside dirs (dir ++ [n]))
    (hreplace : CanReplace t₁ src dir n) :
    KeepsInside dirs t (t₁.rename src dir n hreplace.dir hreplace.out) := by
  intro p
  rw [FileTree.lookup_rename]
  split_ifs with hin hout
  · right
    left
    refine ⟨hdst.mono hin, ?_⟩
    rcases h (src ++ p.drop (dir ++ [n]).length) with heq | ⟨-, hmade, -⟩
    · exact .inr (.inr ⟨_, hsrc.mono (List.prefix_append _ _), heq⟩)
    · exact .inr (.inl hmade)
  · exact .inr (.inl ⟨hsrc.mono hout, .inl rfl⟩)
  · exact h.keepsInside hdst p

theorem ensureDir_adds (sys : System β) (hp : Plain t p) :
    AddsDirs p t (final (ensureDir sys p) t) := by
  have hrun : ensureDir sys p t =
      if pathExists sys t p = false then makedirs sys true p t else .ok () t := by
    rw [ensureDir, get_bind]
    split_ifs
    · rfl
    · rfl
  rw [final, hrun]
  split_ifs
  · exact (makedirs_spec sys true hp).1
  · exact .refl p t

/-- What `safe_rename` leaves. -/
theorem safeRename_keepsInside (sys : System β) (env : Surroundings)
    (allowedDirs : Option (List Path)) (src dst : Path) (t : Tree β) :
    KeepsInside (allowedComponents env allowedDirs) t
      (final (safeRename sys env allowedDirs src dst) t) := by
  rw [final, safeRename]
  rcases validated_cases sys env allowedDirs src true false t with
    ⟨e, hsrc⟩ | ⟨source, hsrc, hplain, hinside⟩
  · rw [bind_error hsrc]
    exact .refl _ t
  rw [bind_ok hsrc]
  rcases validated_cases sys env allowedDirs dst false false t with
    ⟨e, hdst⟩ | ⟨target, hdst, hplain', hinside'⟩
  · rw [bind_error hdst]
    exact .refl _ t
  rw [bind_ok hdst]
  have hadds := ensureDir_adds sys (hplain'.mono (List.dropLast_prefix target))
  have hkept := (hadds.mono (List.dropLast_prefix target)).keepsInside hinside'
  cases hmade : ensureDir sys target.dropLast t with
  | error e t₁ =>
      rw [final_error hmade] at hkept
      rw [bind_error hmade]
      exact hkept
  | ok _ t₁ =>
      rw [final_ok hmade] at hadds hkept
      rw [bind_ok hmade]
      rcases osRename_cases sys source target t₁ with ⟨e, h⟩ | ⟨a, b, -, -, -, -, h⟩ |
        ⟨a, b, hreplace, ha, hb, -, -, h⟩
      · rw [h]
        exact hkept
      · rw [h]
        exact hkept
      · rw [h]
        have hsource := entry_path (hadds.plain hplain) ha
        have htarget : b.1 ++ [b.2] = target := entry_path (hadds.plain hplain') hb
        exact KeepsInside.rename (htarget ▸ hadds.mono (List.dropLast_prefix target))
          (hsource ▸ hinside) (htarget ▸ hinside') hreplace

/-- A checked path leads through no link and is inside; a renaming keeps inside. -/
theorem checked_confined (sys : System β) (env : Surroundings) (allowedDirs : Option (List Path))
    (t : Tree β) :
    (∀ filePath checkExists allowSymlinks r,
      validateFilePath sys t env filePath allowedDirs checkExists allowSymlinks = .ok r →
        Plain t r ∧ Inside (allowedComponents env allowedDirs) r) ∧
    ∀ src dst, KeepsInside (allowedComponents env allowedDirs) t
      (final (safeRename sys env allowedDirs src dst) t) :=
  ⟨fun _ _ _ _ h => validateFilePath_ok h,
    fun src dst => safeRename_keepsInside sys env allowedDirs src dst t⟩

end Renaming

section Missing

def keptDir : FileName := ⟨['k'], by decide, by decide, by decide, by decide⟩
def keptFile : FileName := ⟨['u'], by decide, by decide, by decide, by decide⟩
def missingRoot : FileName := ⟨['v'], by decide, by decide, by decide, by decide⟩
def missingDir : FileName := ⟨['w'], by decide, by decide, by decide, by decide⟩

/-- Of the two allowed directories one is there. -/
def keptTree : Tree ℕ :=
  (FileTree.bare.insert [] keptDir .dir bare_root (by decide)).insert [keptDir] keptFile (.file 0)
    (by decide) (by decide)

def keptAllowed : Option (List Path) := some ["/k".toList, "/v/w".toList]

/-- The directory above the missing one is made, and is not inside. -/
theorem directory_made_outside :
    let t' := final (safeRename (.sorted 40 1000) ⟨[], none⟩ keptAllowed "/k/u".toList "/v/w/u".toList)
      keptTree
    keptTree.lookup [missingRoot] = none ∧ t'.lookup [missingRoot] = some .dir ∧
      ¬ Inside (allowedComponents ⟨[], none⟩ keptAllowed) [missingRoot] := by
  refine ⟨rfl, by decide +kernel, ?_⟩
  rintro ⟨dir, hdir, hinside⟩
  have hdirs : allowedComponents ⟨[], none⟩ keptAllowed = [[['k']], [['v'], ['w']]] := rfl
  rw [hdirs] at hdir
  rcases List.mem_pair.mp hdir with rfl | rfl
  · exact absurd hinside (by decide)
  · exact absurd hinside (by decide)

end Missing

end SmartMedia.Storage
