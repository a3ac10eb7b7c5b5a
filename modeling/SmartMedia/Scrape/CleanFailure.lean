import SmartMedia.Scrape.OrganizeItem
import SmartMedia.Storage.CallEffects

/-!
# When organizing fails cleanly

An organizing that fails, or raises, has taken nothing away, unless it was to overwrite a file: that one
is removed before anything else is tried.
-/
namespace SmartMedia.Scrape
open Media PosixPath Storage StateProgram

variable {β : Type} {sys : System β} {t t' : Storage.Tree β}

section NextAvailable
variable {taken : Path → Bool} {variant : ℕ → Path}

/-- The loop ends at an available path, or has found all the tested variants taken. -/
theorem firstAvailable_spec (taken : Path → Bool) (variant : ℕ → Path) (fuel index : ℕ)
    (candidate : Path) :
    taken (firstAvailable taken variant (fuel + 1) index candidate) = false ∨
      ∀ i < fuel, taken (variant (index + i)) = true := by
  induction fuel generalizing index candidate with
  | zero => exact .inr fun i hi => by omega
  | succ fuel ih =>
      rw [firstAvailable]
      split_ifs with hc
      · rcases ih (index + 1) (variant index) with h | h
        · exact .inl h
        · by_cases hv : taken (variant index) = true
          · right
            intro i hi
            cases i with
            | zero => exact hv
            | succ i =>
                have hnext := h i (by omega)
                rwa [Nat.add_right_comm] at hnext
          · left
            rw [firstAvailable, if_neg hv]
            exact Bool.eq_false_iff.mpr hv
      · exact .inl (Bool.eq_false_iff.mpr hc)

variable {cwd : List FileName} {dir : Path} {n : FileName}

theorem parts_joinHead (dir : Path) (n : FileName) :
    parts (joinHead dir ++ n.chars) = parts (joinHead dir) ++ [.name n] := by
  have hname : (splitSlash n.chars).filterMap part? = [.name n] := by
    rw [splitSlash_of_notMem n.noSlash, List.filterMap_cons, part?_chars]
    rfl
  rcases joinHead_cases dir with hnil | ⟨front, hfront⟩
  · rw [hnil, List.nil_append, parts, hname]
    rfl
  · have hlast : parts (front ++ ['/']) = parts front := by
      rw [parts, splitSlash_slash, List.filterMap_append]
      exact List.append_nil _
    rw [hfront, hlast, List.append_assoc, List.singleton_append, parts, splitSlash_slash,
      List.filterMap_append, hname, parts]

theorem linkStart_joinHead (cwd : List FileName) (dir : Path) (n : FileName) :
    linkStart cwd (joinHead dir ++ n.chars) = linkStart cwd (joinHead dir) := by
  have hname : n.chars.head? ≠ some '/' := fun h => n.noSlash (List.mem_of_mem_head? h)
  rcases joinHead_cases dir with hnil | ⟨front, hfront⟩
  · rw [hnil, List.nil_append, linkStart, linkStart, if_neg hname, if_neg (by simp)]
  · rw [hfront, linkStart, linkStart, List.head?_append_of_ne_nil _ (by simp)]

/-- What there is in a directory is a name that the directory has. -/
theorem lookup_of_existsText (h : existsText sys t cwd (joinHead dir ++ n.chars) = true) :
    ∃ found, walk t sys.symlinkLimit (linkStart cwd (joinHead dir)) (parts (joinHead dir)) =
      some found ∧ t.lookup (found ++ [n]) ≠ none := by
  rw [existsText, statText] at h
  split_ifs at h
  · cases h
  · obtain ⟨found, hfound⟩ := Option.isSome_iff_exists.mp h
    have hwalk := (Option.filter_eq_some_iff.mp hfound).1
    rw [parts_joinHead, linkStart_joinHead] at hwalk
    obtain ⟨d, hd, -, hsome⟩ := walk_concat_some hwalk
    exact ⟨d, hd, hsome⟩

theorem slash_notMem_numbered {stem ext : Path} (hstem : '/' ∉ stem) (hext : '/' ∉ ext) (i : ℕ) :
    '/' ∉ numbered stem ext i := by
  rw [numbered, List.mem_append, List.cons_append, List.mem_cons, List.mem_append]
  rintro (h | h | h | h)
  · exact hstem h
  · exact absurd h (by decide)
  · exact digit_noSlash i h
  · exact hext h

/-- A numbered name is a name. -/
def numberedName (stem ext : Path) (hstem : '/' ∉ stem) (hext : '/' ∉ ext) (i : ℕ) : FileName where
  chars := numbered stem ext i
  nonempty := by simp [numbered]
  noSlash := slash_notMem_numbered hstem hext i
  notDot h := by
    have hmem : '_' ∈ numbered stem ext i := by simp [numbered]
    rw [h] at hmem
    exact absurd hmem (by decide)
  notDots h := by
    have hmem : '_' ∈ numbered stem ext i := by simp [numbered]
    rw [h] at hmem
    exact absurd hmem (by decide)

theorem noSlash_basename (p : Path) : '/' ∉ basename p := by
  rw [basename, List.mem_reverse]
  intro h
  have hne := List.mem_takeWhile_imp h
  simp at hne

/-- A tree is finite, so there is an available variant. -/
theorem nextAvailablePath_available (sys : System β) (t : Storage.Tree β) (cwd : List FileName)
    (targetPath : Path) : existsText sys t cwd (nextAvailablePath sys t cwd targetPath) = false := by
  have hstem : '/' ∉ (splitext (basename targetPath)).1 := by
    intro h
    apply noSlash_basename targetPath
    rw [← splitext_join (basename targetPath)]
    exact List.mem_append_left _ h
  have hext := splitext_noSlash (basename targetPath)
  rw [nextAvailablePath]
  rcases firstAvailable_spec (existsText sys t cwd)
      (fun index => join (dirname targetPath)
        (numbered (splitext (basename targetPath)).1 (splitext (basename targetPath)).2 index))
      (t.keys.card + 1) 1 targetPath with h | h
  · exact h
  · exfalso
    set name := numberedName _ _ hstem hext with hname
    have htaken : ∀ i < t.keys.card + 1,
        existsText sys t cwd (joinHead (dirname targetPath) ++ (name (1 + i)).chars) = true := by
      intro i hi
      have hhead : (name (1 + i)).chars.head? ≠ some '/' :=
        fun hhead => (name (1 + i)).noSlash (List.mem_of_mem_head? hhead)
      rw [← join_relative hhead]
      exact h i hi
    obtain ⟨found, hfound, -⟩ := lookup_of_existsText (htaken 0 (Nat.succ_pos _))
    -- more names than the tree has paths
    have hsub : (Finset.range (t.keys.card + 1)).image (fun i => found ++ [name (1 + i)]) ⊆ t.keys := by
      intro p hp
      obtain ⟨i, hi, rfl⟩ := Finset.mem_image.mp hp
      obtain ⟨found', hfound', hsome⟩ := lookup_of_existsText (htaken i (Finset.mem_range.mp hi))
      rw [hfound] at hfound'
      rw [Option.some.inj hfound', t.mem_keys]
      exact hsome
    have hinj : Function.Injective fun i => found ++ [name (1 + i)] := by
      intro i j hij
      have hchars := congrArg FileName.chars (List.cons.inj (List.append_cancel_left hij)).1
      exact Nat.add_left_cancel (numbered_injective _ _ hchars)
    have hcard := Finset.card_le_card hsub
    rw [Finset.card_image_of_injective _ hinj, Finset.card_range] at hcard
    omega

end NextAvailable

section Failing
variable {m : SafeM β Organized}

/-- A run that does not end well keeps what there was. -/
def FailsCleanly (m : SafeM β Organized) (t : Storage.Tree β) : Prop :=
  (∀ target t', m t ≠ .ok (.done target) t') → Keeps t (final m t)

theorem FailsCleanly.of_leads (h : Leads Keeps m t) : FailsCleanly m t := fun _ => h

/-- Nothing follows an operation that raises. -/
theorem FailsCleanly.of_onError {m : SafeM β Unit} {target : Path} (h : OnError Keeps m t) :
    FailsCleanly (do m; pure (.done target)) t := by
  intro hfails
  cases hm : m t with
  | ok _ t' => exact absurd (bind_ok hm) (hfails target t')
  | error e t' =>
      rw [final_error (bind_error hm)]
      exact h e t' hm

theorem FailsCleanly.bind {α : Type} {m : SafeM β α} {f : α → SafeM β Organized}
    (hm : Leads Keeps m t) (hf : ∀ a t', m t = .ok a t' → FailsCleanly (f a) t') :
    FailsCleanly (m >>= f) t := by
  intro hfails
  cases hrun : m t with
  | ok a t' =>
      have heq : (m >>= f) t = f a t' := bind_ok hrun
      rw [Leads, final_ok hrun] at hm
      have hkept : Keeps t' (final (f a) t') :=
        hf a t' hrun fun target t'' h => hfails target t'' (heq.trans h)
      rw [final, heq]
      exact hm.trans _ _ _ hkept
  | error e t' =>
      rw [Leads, final_error hrun] at hm
      rw [final_error (bind_error hrun)]
      exact hm

theorem FailsCleanly.get {f : Storage.Tree β → SafeM β Organized} (h : FailsCleanly (f t) t) :
    FailsCleanly (get >>= f) t := h

/-- A check comes first. -/
theorem FailsCleanly.checked {env : Surroundings} {allowedDirs : Option (List Path)} {filePath : Path}
    {checkExists allowSymlinks : Bool} {f : List FileName → SafeM β Organized}
    (hf : ∀ p, FailsCleanly (f p) t) :
    FailsCleanly (Storage.checked env allowedDirs sys filePath checkExists allowSymlinks >>= f) t := by
  apply FailsCleanly.bind (leads_checked (.refl t))
  intro p t' h
  obtain ⟨rfl, -⟩ := checked_ok h
  exact hf p

theorem final_caught {env : Surroundings} {os : Os sys env.cwd} :
    final (caught env os m) t = final m t := by
  rw [final, final, Scrape.caught]
  cases m t with
  | ok r t' => rfl
  | error e t' =>
      cases e with
      | security e => rfl
      | os e => rfl

/-- What is caught does not end well. -/
theorem caught_done {env : Surroundings} {os : Os sys env.cwd} {target : Path}
    (h : caught env os m t = .ok (.done target) t') : m t = .ok (.done target) t' := by
  rw [Scrape.caught] at h
  cases hm : m t with
  | ok r t'' =>
      rw [hm] at h
      exact h
  | error e t'' =>
      rw [hm] at h
      cases e with
      | security e => cases h
      | os e => cases h

theorem FailsCleanly.caught {env : Surroundings} {os : Os sys env.cwd} (h : FailsCleanly m t) :
    FailsCleanly (caught env os m) t := by
  intro hfails
  rw [final_caught]
  apply h
  intro target t' hm
  apply hfails target t'
  rw [Scrape.caught, hm]

theorem unlessRefused_ok {m : SafeM β Unit} {rest : SafeM β Organized} {message : String}
    (h : m t = .ok () t') : Scrape.unlessRefused message m rest t = rest t' := by
  rw [Scrape.unlessRefused, h]

theorem FailsCleanly.unlessRefused {m : SafeM β Unit} {rest : SafeM β Organized} {message : String}
    (hm : Leads Keeps m t) (hrest : ∀ t', m t = .ok () t' → FailsCleanly rest t') :
    FailsCleanly (unlessRefused message m rest) t := by
  intro hfails
  cases hrun : m t with
  | ok _ t' =>
      have heq : Scrape.unlessRefused message m rest t = rest t' := unlessRefused_ok hrun
      rw [Leads, final_ok hrun] at hm
      have hkept : Keeps t' (final rest t') :=
        hrest t' hrun fun target t'' h => hfails target t'' (heq.trans h)
      rw [final, heq]
      exact hm.trans _ _ _ hkept
  | error e t' =>
      rw [Leads, final_error hrun] at hm
      rw [final, Scrape.unlessRefused, hrun]
      cases e with
      | security e => exact hm
      | os e => exact hm

end Failing

section Organize
variable {env : Surroundings} (os : Os sys env.cwd) {low : LowerCase} {row : Option CategoryStrategy}
  {item : ScrapeItem} {options : OrganizeOptions}

/-- To where nothing is, a file is brought or all is kept. -/
theorem transfer_failsCleanly {allowedDirs : List Path} {mode sourceFile targetPath : Path}
    (h : existsText sys t env.cwd targetPath = false) :
    FailsCleanly (transfer env os allowedDirs mode sourceFile targetPath) t := by
  rw [transfer]
  split_ifs
  · exact .of_onError (safeRename_onError os t)
  · exact .checked fun _ => .checked fun _ => .of_onError (copy2_onError os h)
  · exact .of_onError (safeHardlink_onError os t)
  · exact .of_onError (safeSymlink_onError os t)
  · exact .of_leads (Keeps.refl t)

theorem entryText_dir {cwd : List FileName} {text : Path} {dir : List FileName} {n : FileName}
    (h : entryText sys t cwd text = some (dir, n)) : t.lookup dir = some .dir := by
  rw [entryText] at h
  split at h
  · obtain ⟨d, -, hd⟩ := Option.bind_eq_some_iff.mp h
    split_ifs at hd with hlookup
    obtain ⟨rfl, -⟩ := Prod.mk.inj (Option.some.inj hd)
    exact hlookup
  · cases h

/-- What is there and no directory is removed. -/
theorem unlinkText_of_entry {cwd : List FileName} {text : Path} {dir : List FileName} {n : FileName}
    (hentry : entryText sys t cwd text = some (dir, n)) :
    unlinkText sys cwd text t =
      if t.lookup (dir ++ [n]) = none ∨ t.lookup (dir ++ [n]) = some .dir then .error .osError t
      else .ok () (t.remove (dir ++ [n]) (by simp)) := by
  have hdir := entryText_dir hentry
  have hplace : entry sys t (dir ++ [n]) = some (dir, n) := by
    rw [entry_plain (plain_of_dir hdir), if_pos hdir]
  unfold unlinkText
  rw [get_bind, hentry]
  dsimp only
  unfold unlink
  rw [get_bind, hplace]
  dsimp only
  split_ifs
  · rfl
  · rfl

theorem unlinkText_of_no_entry {cwd : List FileName} {text : Path}
    (hentry : entryText sys t cwd text = none) : unlinkText sys cwd text t = .error .osError t := by
  unfold unlinkText
  rw [get_bind, hentry]
  rfl

variable (env low row item options)

/-- Organizing gets to remove what is at the target: it has made the directory of the target, and found
both paths allowed and different. -/
structure Overwrites (sys : System β) (t made : Storage.Tree β) : Prop where
  forced : options.forceOverwrite = true
  source : existsText sys t env.cwd item.filePath = true
  directory : (Os.reliable sys env.cwd).safeMakedirs env (some (organizeDirs env item options))
    (targetRoot low row item options) t = .ok () made
  sourceAllowed : ∃ p, validateFilePath sys made env item.filePath
    (some (organizeDirs env item options)) true false = .ok p
  targetAllowed : ∃ p, validateFilePath sys made env (organizeTarget low row item options)
    (some (organizeDirs env item options)) false false = .ok p
  apart : abspath (pathText env.cwd) item.filePath ≠
    abspath (pathText env.cwd) (organizeTarget low row item options)
  there : existsText sys made env.cwd (organizeTarget low row item options) = true
  noDirectory : ∃ dir n, entryText sys made env.cwd (organizeTarget low row item options) =
    some (dir, n) ∧ made.lookup (dir ++ [n]) ≠ none ∧ made.lookup (dir ++ [n]) ≠ some .dir

variable {env low row item options}

theorem safeMakedirs_reliable {allowedDirs : Option (List Path)} {path : Path}
    (h : os.safeMakedirs env allowedDirs path t = .ok () t') :
    (Os.reliable sys env.cwd).safeMakedirs env allowedDirs path t = .ok () t' := by
  rw [Os.safeMakedirs, get_bind] at h ⊢
  generalize (if dirname _ = [] then _ else _) = parentDir at h ⊢
  split_ifs at h ⊢
  · exact h
  · obtain ⟨p, t₁, hchecked, hmade⟩ := bind_eq_ok.mp h
    exact bind_eq_ok.mpr ⟨p, t₁, hchecked, call_ok ((os.makedirs_may _).eq_ok (of_call_ok hmade))⟩

theorem place_failsCleanly
    (h : options.forceOverwrite = true →
      existsText sys t env.cwd (organizeTarget low row item options) = true →
      ∀ dir n, entryText sys t env.cwd (organizeTarget low row item options) = some (dir, n) →
        t.lookup (dir ++ [n]) ≠ none → t.lookup (dir ++ [n]) = some .dir) :
    FailsCleanly (place env os low row item options) t := by
  rw [place]
  apply FailsCleanly.get
  split_ifs with hexists hforced
  · have hunlink : unlinkText sys env.cwd (organizeTarget low row item options) t =
        .error .osError t := by
      cases hentry : entryText sys t env.cwd (organizeTarget low row item options) with
      | none => exact unlinkText_of_no_entry hentry
      | some found =>
          rw [unlinkText_of_entry hentry, if_pos]
          by_contra hno
          rw [not_or] at hno
          exact hno.2 (h hforced hexists _ _ hentry hno.1)
    have hkept : Leads Keeps (unlinkText sys env.cwd (organizeTarget low row item options)) t := by
      rw [Leads, final_error hunlink]
      exact .refl t
    apply FailsCleanly.bind
    · apply leads_call
      apply (os.remove_may _).leads hkept
      rintro t' rfl
      exact .refl _
    · intro _ t' hremove
      have hok := (os.remove_may _).eq_ok (of_call_ok hremove)
      rw [hunlink] at hok
      cases hok
  · exact .caught (transfer_failsCleanly os (nextAvailablePath_available sys t env.cwd _))
  · exact .caught (transfer_failsCleanly os (Bool.eq_false_iff.mpr hexists))

theorem organizeItem_failsCleanly
    (h : ∀ made, ¬ Overwrites env low row item options sys t made) :
    FailsCleanly (organizeItem env os low row item options) t := by
  rw [organizeItem]
  apply FailsCleanly.get
  by_cases hsource : existsText sys t env.cwd item.filePath = false
  · rw [if_pos hsource]
    exact .of_leads (Keeps.refl t)
  rw [if_neg hsource]
  apply FailsCleanly.unlessRefused (safeMakedirs_moreDirs os _ t).keeps
  intro made hmade
  apply FailsCleanly.unlessRefused
  · exact leads_bind Keeps.trans (leads_checked (.refl made)) fun _ t₁ _ =>
      leads_bind Keeps.trans (leads_checked (.refl t₁)) fun _ t₂ _ => Keeps.refl t₂
  intro t₂ hchecks
  obtain ⟨p, t₁, hsrc, hrest⟩ := bind_eq_ok.mp hchecks
  obtain ⟨rfl, hsrc⟩ := checked_ok hsrc
  obtain ⟨q, t₃, hdst, hlast⟩ := bind_eq_ok.mp hrest
  obtain ⟨rfl, hdst⟩ := checked_ok hdst
  obtain ⟨-, rfl⟩ := EStateM.Result.ok.inj hlast
  split_ifs with happart
  · intro hfails
    exact absurd rfl (hfails _ _)
  · apply place_failsCleanly
    intro hforced hexists dir n hentry hsome
    by_contra hfile
    exact h _ ⟨hforced, Bool.eq_true_of_not_eq_false hsource, safeMakedirs_reliable os hmade, ⟨p, hsrc⟩,
      ⟨q, hdst⟩, happart, hexists, dir, n, hentry, hsome, hfile⟩

end Organize

section Refusing
variable {env : Surroundings} {allowedDirs : Option (List Path)} {src dst : Path}

/-- Directories are made at most before it raises. -/
def Refused {α : Type} (m : SafeM β α) : Prop := ∀ t, ∃ e t', m t = .error e t' ∧ MoreDirs t t'

theorem Refused.bind {α γ : Type} {m : SafeM β α} {f : α → SafeM β γ}
    (hm : ∀ t, Leads MoreDirs m t) (hf : ∀ a, Refused (f a)) : Refused (m >>= f) := by
  intro t
  cases hrun : m t with
  | ok a t' =>
      have hfirst := hm t
      rw [Leads, final_ok hrun] at hfirst
      obtain ⟨e, t'', herror, hmore⟩ := hf a t'
      exact ⟨e, t'', (bind_ok hrun).trans herror, hfirst.trans _ _ _ hmore⟩
  | error e t' =>
      have hfirst := hm t
      rw [Leads, final_error hrun] at hfirst
      exact ⟨e, t', bind_error hrun, hfirst⟩

/-- Nothing follows. -/
theorem Refused.followed {α γ : Type} {m : SafeM β α} (h : Refused m) (f : α → SafeM β γ) :
    Refused (m >>= f) := by
  intro t
  obtain ⟨e, t', herror, hmore⟩ := h t
  exact ⟨e, t', bind_error herror, hmore⟩

theorem Refused.get {α : Type} {f : Storage.Tree β → SafeM β α} (h : ∀ t, ∃ e t', f t t = .error e t' ∧ MoreDirs t t') :
    Refused (get >>= f) := h

theorem refused_throw {α : Type} (e : Storage.Raised) : Refused (throw e : SafeM β α) :=
  fun t => ⟨e, t, rfl, .refl t⟩

theorem refused_checks {α : Type} (os : Os sys env.cwd) {allowSymlinks : Bool}
    {f : List FileName → List FileName → SafeM β α} (hf : ∀ p q, Refused (f p q)) :
    Refused (do
      let srcValidated ← checked env allowedDirs sys src true allowSymlinks
      let dstValidated ← checked env allowedDirs sys dst false false
      os.ensureDir env dstValidated.dropLast
      f srcValidated dstValidated) :=
  .bind (fun t => leads_checked (.refl t)) fun p =>
    .bind (fun t => leads_checked (.refl t)) fun q =>
      .bind (fun t => ensureDir_moreDirs os q.dropLast t) fun _ => hf p q

theorem refused_copy2 : Refused ((Os.refusing sys env.cwd).copy2 env src dst) := by
  rw [Os.copy2]
  apply Refused.get
  intro t
  generalize (if isDirText sys t env.cwd dst = true then _ else dst) = target
  dsimp only
  split_ifs
  · exact ⟨_, t, rfl, .refl t⟩
  · generalize (statText sys t env.cwd src).bind t.lookup = node
    rcases node with _ | _ | content | _
    · exact ⟨_, t, rfl, .refl t⟩
    · exact ⟨_, t, rfl, .refl t⟩
    · exact ⟨_, t, rfl, .refl t⟩
    · exact ⟨_, t, rfl, .refl t⟩

/-- Whatever the mode, nothing is brought to the target. -/
theorem transfer_refused (sys : System β) (env : Surroundings) (dirs : List Path) (mode src dst : Path)
    (t : Storage.Tree β) :
    (∀ target t', transfer env (Os.refusing sys env.cwd) dirs mode src dst t ≠ .ok (.done target) t') ∧
      MoreDirs t (final (transfer env (Os.refusing sys env.cwd) dirs mode src dst) t) := by
  have hraised : ∀ {m : SafeM β Organized}, Refused m →
      (∀ target t', m t ≠ .ok (.done target) t') ∧ MoreDirs t (final m t) := by
    intro m h
    obtain ⟨e, t', herror, hmore⟩ := h t
    rw [final_error herror]
    refine ⟨fun target t'' hok => ?_, hmore⟩
    rw [herror] at hok
    cases hok
  have hcall : ∀ p q, Refused (call ((Os.refusing sys env.cwd).rename p q)) := fun p q t =>
    ⟨_, t, rfl, .refl t⟩
  have hlink : ∀ p q, Refused (call ((Os.refusing sys env.cwd).link p q)) := fun p q t =>
    ⟨_, t, rfl, .refl t⟩
  have hsymlink : ∀ p q, Refused (call ((Os.refusing sys env.cwd).symlink (pathText p) q)) :=
    fun p q t => ⟨_, t, rfl, .refl t⟩
  rw [transfer]
  split_ifs
  · exact hraised ((refused_checks _ hcall).followed _)
  · exact hraised (.bind (fun t => leads_checked (.refl t)) fun _ =>
      .bind (fun t => leads_checked (.refl t)) fun _ => refused_copy2.followed _)
  · exact hraised ((refused_checks _ fun p q => (hlink p q).followed _).followed _)
  · exact hraised ((refused_checks _ hsymlink).followed _)
  · refine ⟨fun target t' hok => ?_, .refl t⟩
    cases hok

end Refusing

section Clean
variable (env : Surroundings) (low : LowerCase) (row : Option CategoryStrategy) (item : ScrapeItem)
  (options : OrganizeOptions)

/-- What was to be overwritten is gone, though nothing is brought there. -/
theorem overwritten_lost {made : Storage.Tree β} (h : Overwrites env low row item options sys t made) :
    ¬ FailsCleanly (organizeItem env (Os.refusing sys env.cwd) low row item options) t := by
  intro hclean
  obtain ⟨p, hsrc⟩ := h.sourceAllowed
  obtain ⟨q, hdst⟩ := h.targetAllowed
  obtain ⟨dir, n, hentry, hsome, hfile⟩ := h.noDirectory
  have hunlink := unlinkText_of_entry hentry
  rw [if_neg (not_or.mpr ⟨hsome, hfile⟩)] at hunlink
  set removed := made.remove (dir ++ [n]) (by simp)
  set moved := transfer env (Os.refusing sys env.cwd) (organizeDirs env item options)
    options.renameMode item.filePath (organizeTarget low row item options) with hmoved
  have hplace : place env (Os.refusing sys env.cwd) low row item options made =
      caught env (Os.refusing sys env.cwd) moved removed := by
    rw [place, get_bind, if_pos h.there, if_pos h.forced]
    exact bind_ok (call_ok hunlink)
  have hchecks : (do
      let _ ← checked env (some (organizeDirs env item options)) sys item.filePath true false
      let _ ← checked env (some (organizeDirs env item options)) sys
        (organizeTarget low row item options) false false
      pure () : SafeM β Unit) made = .ok () made :=
    bind_eq_ok.mpr ⟨p, made, checked_of_ok hsrc, bind_eq_ok.mpr ⟨q, made, checked_of_ok hdst, rfl⟩⟩
  have hdirectory : (Os.refusing sys env.cwd).safeMakedirs env (some (organizeDirs env item options))
      (targetRoot low row item options) t = .ok () made := h.directory
  have hrun : organizeItem env (Os.refusing sys env.cwd) low row item options t =
      caught env (Os.refusing sys env.cwd) moved removed := by
    rw [organizeItem, get_bind, if_neg (by simp [h.source]), unlessRefused_ok hdirectory,
      unlessRefused_ok hchecks, if_neg h.apart, hplace]
  obtain ⟨hfails, hmore⟩ := transfer_refused sys env (organizeDirs env item options)
    options.renameMode item.filePath (organizeTarget low row item options) removed
  have hkept : Keeps t (final moved removed) := by
    have hfinal : final (organizeItem env (Os.refusing sys env.cwd) low row item options) t =
        final moved removed := by
      rw [final, hrun, ← final, final_caught]
    rw [← hfinal]
    apply hclean
    intro target t' hdone
    rw [hrun] at hdone
    exact hfails target t' (caught_done hdone)
  -- what is removed was there before the directory of the target was made
  have hbefore : made.lookup (dir ++ [n]) = t.lookup (dir ++ [n]) := by
    have hdirs : Leads MoreDirs ((Os.refusing sys env.cwd).safeMakedirs env
        (some (organizeDirs env item options)) (targetRoot low row item options)) t :=
      safeMakedirs_moreDirs _ _ t
    rw [Leads, final_ok hdirectory] at hdirs
    exact hdirs.lookup_of_ne hfile
  obtain ⟨x, hx⟩ := Option.ne_none_iff_exists'.mp hsome
  have hafter := hkept _ _ (hbefore.symm.trans hx)
  have hgone : removed.lookup (dir ++ [n]) = none := by
    rw [FileTree.lookup_remove, if_pos List.prefix_rfl]
  rcases hmore (dir ++ [n]) with heq | ⟨-, hmade⟩
  · rw [hafter, hgone] at heq
    cases heq
  · rw [hafter] at hmade
    rw [hx, Option.some.inj hmade] at hfile
    exact hfile rfl

/-- Organizing fails cleanly, whatever raises when, just when it does not get to remove what is at the
target. -/
theorem organizeItem_failsCleanly_iff (t : Storage.Tree β) :
    (∀ os : Os sys env.cwd, FailsCleanly (organizeItem env os low row item options) t) ↔
      ∀ made, ¬ Overwrites env low row item options sys t made := by
  constructor
  · intro hclean made hover
    exact overwritten_lost env low row item options hover (hclean _)
  · intro h os
    exact organizeItem_failsCleanly os h

end Clean

section Lost

def inbox : FileName := ⟨"in".toList, by decide, by decide, by decide, by decide⟩
def shelf : FileName := ⟨"out".toList, by decide, by decide, by decide, by decide⟩
def film : FileName := ⟨"film.mkv".toList, by decide, by decide, by decide, by decide⟩

/-- A file, and an older one where it is to go. -/
def filmTree : Storage.Tree ℕ :=
  let t := FileTree.bare.insert [] inbox .dir bare_root (by decide)
  let t := t.insert [] shelf .dir rfl (by decide)
  let t := t.insert [inbox] film (.file 1) (by decide) (by decide)
  t.insert [shelf] film (.file 2) (by decide) (by decide)

def filmItem : ScrapeItem :=
  { ScrapeItem.ofFile "/in/film.mkv".toList with mediaType := .movie, title := some "film".toList }

def overwriting : OrganizeOptions where
  sourcePath := some "/in".toList
  destPath := some "/out".toList
  enableSecondaryCategory := false
  forceOverwrite := true

/-- How a run ended, but for exceptions. -/
def ended (r : EStateM.Result Storage.Raised (Storage.Tree β) Organized) : Option Organized :=
  match r with
  | .ok organized _ => some organized
  | .error _ _ => none

/-- The rename raises, and the older film is gone. -/
theorem older_film_lost :
    let run := organizeItem ⟨[], none⟩ (Os.refusing (.sorted 40 1000) []) .ascii none filmItem overwriting
    ended (run filmTree) =
        some (.failed ⟨"RENAME_IO_ERROR", "Failed to organize media file", []⟩) ∧
      filmTree.lookup [shelf, film] = some (.file 2) ∧ (final run filmTree).lookup [shelf, film] = none ∧
        ¬ FailsCleanly run filmTree := by
  have hended : ended (organizeItem ⟨[], none⟩ (Os.refusing (.sorted 40 1000) []) .ascii none filmItem
      overwriting filmTree) =
        some (.failed ⟨"RENAME_IO_ERROR", "Failed to organize media file", []⟩) := by decide +kernel
  have hgone : (final (organizeItem ⟨[], none⟩ (Os.refusing (.sorted 40 1000) []) .ascii none filmItem
      overwriting) filmTree).lookup [shelf, film] = none := by decide +kernel
  refine ⟨hended, rfl, hgone, ?_⟩
  intro hclean
  have hkept := hclean (fun target t' hdone => by rw [hdone] at hended; cases hended) [shelf, film]
    (.file 2) rfl
  rw [hgone] at hkept
  cases hkept

end Lost

end SmartMedia.Scrape
