import SmartMedia.Media.Titles
import SmartMedia.Scrape.CleanFailure

/-!
# Where an organized file lies

The title of a file is sanitized, so that the file lies in the target root itself. The folder of its
category is not, and the directories above the configured ones are allowed too; so the target root may
lie outside the destination.
-/
namespace SmartMedia.Scrape
open Media PosixPath Storage StateProgram

variable {β : Type} {sys : System β} {t t' : Storage.Tree β}

section Names
variable {p : Char → Bool} {s : Path} {c : Char}

/-- No run is left, and what else is left was there. -/
theorem mem_blankRuns {inRun : Bool} (h : c ∈ blankRuns p inRun s) : c = ' ' ∨ p c = false ∧ c ∈ s := by
  induction s generalizing inRun with
  | nil => cases h
  | cons d s ih =>
      have hrest : ∀ {inRun : Bool}, c ∈ blankRuns p inRun s → c = ' ' ∨ p c = false ∧ c ∈ d :: s :=
        fun h => (ih h).imp_right fun h => ⟨h.1, List.mem_cons_of_mem d h.2⟩
      rw [blankRuns] at h
      split_ifs at h with hd hrun
      · exact hrest h
      · rcases List.mem_cons.mp h with rfl | h
        · exact .inl rfl
        · exact hrest h
      · rcases List.mem_cons.mp h with rfl | h
        · exact .inr ⟨Bool.eq_false_iff.mpr hd, List.mem_cons_self⟩
        · exact hrest h

theorem sanitizeFilename_spec (value : Path) :
    sanitizeFilename value ≠ [] ∧ '/' ∉ sanitizeFilename value := by
  rw [sanitizeFilename]
  split_ifs with hempty
  · exact ⟨by simp, by decide⟩
  · refine ⟨hempty, fun h => ?_⟩
    rcases mem_blankRuns (mem_strip h) with h | ⟨-, h⟩
    · exact absurd h (by decide)
    · rcases mem_blankRuns h with h | ⟨h, -⟩
      · exact absurd h (by decide)
      · exact absurd h (by decide)

theorem buildTargetFilename_spec (item : ScrapeItem) (sourceFile : Path) :
    buildTargetFilename item sourceFile ≠ [] ∧ '/' ∉ buildTargetFilename item sourceFile := by
  have hspec := sanitizeFilename_spec
  rw [buildTargetFilename]
  refine ⟨List.append_ne_nil_of_left_ne_nil (hspec _).1 _, fun h => ?_⟩
  rcases List.mem_append.mp h with h | h
  · exact (hspec _).2 h
  · exact splitext_noSlash _ h

end Names

section Variants

/-- Once a variant is tried, a variant is taken. -/
theorem firstAvailable_variant (taken : Path → Bool) (variant : ℕ → Path) (fuel index j : ℕ) :
    ∃ k, firstAvailable taken variant fuel index (variant j) = variant k := by
  induction fuel generalizing index j with
  | zero => exact ⟨j, rfl⟩
  | succ fuel ih =>
      rw [firstAvailable]
      split_ifs
      · exact ih (index + 1) index
      · exact ⟨j, rfl⟩

/-- In place of a path that is taken comes one in its directory. -/
theorem nextAvailablePath_variant {cwd : List FileName} {targetPath : Path}
    (h : existsText sys t cwd targetPath = true) :
    ∃ name, Media.Plain name ∧
      nextAvailablePath sys t cwd targetPath = join (dirname targetPath) name := by
  have hstem : '/' ∉ (splitext (basename targetPath)).1 := by
    intro h
    apply noSlash_basename targetPath
    rw [← splitext_join (basename targetPath)]
    exact List.mem_append_left _ h
  rw [nextAvailablePath]
  dsimp only
  rw [firstAvailable, if_pos h]
  obtain ⟨k, hk⟩ := firstAvailable_variant (existsText sys t cwd)
    (fun index => join (dirname targetPath)
      (numbered (splitext (basename targetPath)).1 (splitext (basename targetPath)).2 index))
    (t.keys.card + 1) (1 + 1) 1
  exact ⟨_, (numberedName _ _ hstem (splitext_noSlash _) k).plain, hk⟩

end Variants

section Runs
variable {env : Surroundings} {os : Os sys env.cwd} {low : LowerCase} {row : Option CategoryStrategy}
  {item : ScrapeItem} {options : OrganizeOptions} {target : Path}

theorem unlessRefused_done {m : SafeM β Unit} {rest : SafeM β Organized} {message : String}
    (h : unlessRefused message m rest t = .ok (.done target) t') :
    ∃ t'', m t = .ok () t'' ∧ rest t'' = .ok (.done target) t' := by
  rw [unlessRefused] at h
  cases hm : m t with
  | ok u t'' =>
      rw [hm] at h
      exact ⟨t'', rfl, h⟩
  | error e t'' =>
      rw [hm] at h
      cases e with
      | security e => cases h
      | os e => cases h

/-- A file is brought where it is to be brought. -/
theorem transfer_done {allowedDirs : List Path} {mode sourceFile targetPath : Path}
    (h : transfer env os allowedDirs mode sourceFile targetPath t = .ok (.done target) t') :
    target = targetPath := by
  have hlast : ∀ {m : SafeM β Unit} {t : Storage.Tree β},
      (do m; pure (.done targetPath) : SafeM β Organized) t = .ok (.done target) t' →
        target = targetPath := by
    intro m t h
    obtain ⟨_, t₁, -, h⟩ := bind_eq_ok.mp h
    obtain ⟨h, -⟩ := EStateM.Result.ok.inj h
    exact (Organized.done.inj h).symm
  rw [transfer] at h
  split_ifs at h
  · exact hlast h
  · obtain ⟨_, t₁, -, h⟩ := bind_eq_ok.mp h
    obtain ⟨_, t₂, -, h⟩ := bind_eq_ok.mp h
    exact hlast h
  · exact hlast h
  · exact hlast h
  · cases h

theorem place_done (h : place env os low row item options t = .ok (.done target) t') :
    target = organizeTarget low row item options ∨
      existsText sys t env.cwd (organizeTarget low row item options) = true ∧
        target = nextAvailablePath sys t env.cwd (organizeTarget low row item options) := by
  rw [place, get_bind] at h
  split_ifs at h with hexists hforced
  · obtain ⟨_, t₁, -, h⟩ := bind_eq_ok.mp h
    exact .inl (transfer_done (caught_done h))
  · exact .inr ⟨hexists, transfer_done (caught_done h)⟩
  · exact .inl (transfer_done (caught_done h))

/-- A file is brought to its target or to a variant of it, and the target has been allowed. -/
theorem organizeItem_done (h : organizeItem env os low row item options t = .ok (.done target) t') :
    ∃ made r, validateFilePath sys made env (organizeTarget low row item options)
        (some (organizeDirs env item options)) false false = .ok r ∧
      (target = organizeTarget low row item options ∨
        existsText sys made env.cwd (organizeTarget low row item options) = true ∧
          target = nextAvailablePath sys made env.cwd (organizeTarget low row item options)) := by
  rw [organizeItem, get_bind] at h
  by_cases hsource : existsText sys t env.cwd item.filePath = false
  · rw [if_pos hsource] at h
    cases h
  rw [if_neg hsource] at h
  obtain ⟨made, -, h⟩ := unlessRefused_done h
  obtain ⟨t₂, hchecks, h⟩ := unlessRefused_done h
  obtain ⟨p, t₁, hsrc, hrest⟩ := bind_eq_ok.mp hchecks
  obtain ⟨rfl, -⟩ := checked_ok hsrc
  obtain ⟨q, t₃, hdst, hlast⟩ := bind_eq_ok.mp hrest
  obtain ⟨rfl, hdst⟩ := checked_ok hdst
  obtain ⟨-, rfl⟩ := EStateM.Result.ok.inj hlast
  refine ⟨_, q, hdst, ?_⟩
  split_ifs at h
  · obtain ⟨h, -⟩ := EStateM.Result.ok.inj h
    exact .inl (Organized.done.inj h).symm
  · exact place_done h

end Runs

section Confined

/-- The components of the absolute path. -/
def normalForm (env : Surroundings) (p : Path) : List Path := components (abspath (pathText env.cwd) p)

/-- The path lies below the directory. -/
def StrictlyInside (env : Surroundings) (directory p : Path) : Prop :=
  normalForm env directory <+: normalForm env p ∧ normalForm env directory ≠ normalForm env p

instance (env : Surroundings) (directory p : Path) : Decidable (StrictlyInside env directory p) :=
  inferInstanceAs (Decidable (_ ∧ _))

theorem components_joinHead (dir : Path) : components (joinHead dir) = components dir := by
  rw [joinHead]
  split_ifs
  · rfl
  · exact components_trailing dir fun c hc => List.mem_singleton.mp hc

theorem components_joinHead_append (dir p : Path) :
    components (joinHead dir ++ p) = components dir ++ components p := by
  rw [← components_joinHead dir]
  rcases joinHead_cases dir with hnil | ⟨front, hfront⟩
  · rw [hnil]
    rfl
  · have htrailing := components_trailing front fun c (hc : c ∈ ['/']) => List.mem_singleton.mp hc
    rw [hfront, htrailing, List.append_assoc, List.singleton_append, components_append]

/-- `abspath` keeps the components that a path leads to from the working directory. -/
theorem normalForm_eq_resolve (env : Surroundings) (p : Path) :
    normalForm env p = resolve (env.cwd.map (·.chars)) p [] := by
  have habsolute : ∀ {q : Path}, isabs q = true → components (normpath q) = normalize (components q) := by
    intro q hq
    rw [normpath_of_isabs hq, components_rooted (plain_normalize q)]
  rw [normalForm, abspath, resolve, List.append_nil]
  by_cases hp : isabs p = true
  · rw [if_pos hp, habsolute hp, if_pos (of_decide_eq_true hp), List.nil_append]
  · have hhead : p.head? ≠ some '/' := fun h => hp (decide_eq_true h)
    have hjoin : isabs (join (pathText env.cwd) p) = true := by
      rw [join_relative hhead, isabs, decide_eq_true_eq, joinHead]
      split_ifs
      · rfl
      · rfl
    rw [if_neg hp, habsolute hjoin, if_neg hhead, join_relative hhead, components_joinHead_append,
      pathText, components_rooted (Storage.plain_chars env.cwd)]

/-- A name in the root lies below a directory just when the root is the directory or lies below it. -/
theorem strictlyInside_iff {env : Surroundings} {directory root p name : Path}
    (h : normalForm env p = normalForm env root ++ [name]) :
    StrictlyInside env directory p ↔ normalForm env directory <+: normalForm env root := by
  rw [StrictlyInside, h]
  constructor
  · rintro ⟨hbelow, hne⟩
    rcases List.prefix_concat_iff.mp hbelow with heq | hbelow
    · exact absurd heq hne
    · exact hbelow
  · intro hbelow
    refine ⟨hbelow.trans (List.prefix_append _ _), fun heq => ?_⟩
    have hlength := hbelow.length_le
    rw [heq, List.length_append, List.length_singleton] at hlength
    omega

variable {env : Surroundings} {os : Os sys env.cwd} {low : LowerCase} {row : Option CategoryStrategy}
  {item : ScrapeItem} {options : OrganizeOptions} {target : Path}

theorem normalForm_join {directory name : Path} (h : Media.Plain name) :
    normalForm env (join directory name) = normalForm env directory ++ [name] := by
  rw [normalForm_eq_resolve, normalForm_eq_resolve, SmartNames.resolve_join _ h]

/-- A numbered variant stays in the root. -/
theorem normalForm_variant {root name variant : Path} (hname : '/' ∉ name) (h : Media.Plain variant) :
    normalForm env (join (dirname (join root name)) variant) = normalForm env root ++ [variant] := by
  have hdirectory : normalForm env (dirname (join root name)) = normalForm env root := by
    rw [normalForm_eq_resolve, normalForm_eq_resolve, (dirname_join root name).resolve,
      (join_dirname_of_noSlash root hname).resolve]
  rw [normalForm_join h, hdirectory]

end Confined

section Escapes

/-- A run that ends well. -/
theorem of_ended {r : EStateM.Result Storage.Raised (Storage.Tree β) Organized} {organized : Organized}
    (h : ended r = some organized) : ∃ t', r = .ok organized t' := by
  cases r with
  | ok o t' =>
      obtain rfl := Option.some.inj h
      exact ⟨t', rfl⟩
  | error e t' => cases h

def filed : OrganizeOptions := { overwriting with enableSecondaryCategory := true }

end Escapes

end SmartMedia.Scrape
