import SmartMedia.Storage.Copying

/-!
# Moves

What `shutil.move` may do with a path that leads through no link: nothing, or an incomplete
copy and an error, or to put the path in the place of another one, in a directory it has made or
found.
-/
namespace SmartMedia.Storage
open Media StateProgram

variable {β : Type} {sys : System β} {t t' : Tree β} {src dst realDst q : List FileName}
  {n : FileName}

/-- How a call that moves `src` to `q` ends. -/
inductive MoveOutcome (src q : List FileName) (t : Tree β) :
    EStateM.Result Failure (Tree β) Unit → Prop
  | unchanged : MoveOutcome src q t (.ok () t)
  | refused (e : Failure) : MoveOutcome src q t (.error e t)
  | grown (e : Failure) {t' : Tree β} (h : Grows q t t') (hlinkless : Linkless t → Linkless t') :
      MoveOutcome src q t (.error e t')
  | renamed {dir : List FileName} {n : FileName} (hq : q = dir ++ [n]) (hsome : t.lookup src ≠ none)
      (hne : src ≠ q) (h : CanReplace t src dir n) :
      MoveOutcome src q t (.ok () (t.rename src dir n h.dir h.out))
  /-- The directory has been made first. -/
  | copied {t' : Tree β} {dir : List FileName} {n : FileName} (hq : q = dir ++ [n])
      (hsrc : t.lookup src = some .dir) (hnone : t.lookup q = none) (hadds : AddsDirs q t t')
      (hmade : t'.lookup q = some .dir) (h : CanReplace t' src dir n) :
      MoveOutcome src q t (.ok () (t'.rename src dir n h.dir h.out))

section Sources

theorem entry_source (sys : System β) (hsrc : Plain t src) (hsome : t.lookup src ≠ none) (hroot : src ≠ []) :
    ∃ a, entry sys t src = some a ∧ entryPath a = src := by
  obtain ⟨dir, n, rfl⟩ := List.eq_nil_or_concat' src |>.resolve_left hroot
  refine ⟨(dir, n), ?_, rfl⟩
  rw [entry_plain (hsrc.mono (List.prefix_append _ _)), if_pos (t.closed dir n hsome)]

theorem lstat_source (hsrc : Plain t src) (target : Path) :
    lstat sys t src ≠ some (.link target) := by
  intro h
  rw [lstat, Option.bind_eq_some_iff] at h
  obtain ⟨⟨dir, n⟩, hentry, hlookup⟩ := h
  obtain ⟨-, above, rfl, hstat⟩ := entry_eq_some hentry
  rw [entry_plain (hsrc.mono (List.prefix_append _ _))] at hentry
  split_ifs at hentry
  cases hentry
  exact hsrc _ List.prefix_rfl target hlookup

/-- What follows a rename that fails. -/
theorem moveTo_failed {e : Failure} (hsrc : Plain t src)
    (h : osRename sys src realDst t = .error e t) :
    moveTo sys src dst realDst t =
      (if isDir sys t src = true then do
        if src <+: dst then throw .osError
        copytree sys sys.recursionLimit src realDst
        rmtree sys src
      else do
        copy2 sys src realDst
        unlink sys src : FileM β Unit) t := by
  rw [moveTo, tryCatch_error h, get_bind]
  cases hlstat : lstat sys t src with
  | none => rfl
  | some x =>
      cases x with
      | dir => rfl
      | file content => rfl
      | link target => exact absurd hlstat (lstat_source hsrc target)

theorem moveTo_ok (h : osRename sys src realDst t = .ok () t') :
    moveTo sys src dst realDst t = .ok () t' := by
  rw [moveTo, tryCatch_ok h]

/-- Where nothing is, nothing is moved. -/
theorem moveTo_absent (hsrc : Plain t src) (hnone : t.lookup src = none) :
    moveTo sys src dst realDst t = .error .osError t := by
  obtain ⟨e, hrename⟩ := osRename_absent sys realDst hsrc hnone
  have hdir : ¬ isDir sys t src = true := by
    rw [isDir_plain hsrc, hnone]
    simp
  rw [moveTo_failed hsrc hrename, if_neg hdir]
  apply bind_error
  unfold copy2
  rw [get_bind, stat_plain hsrc, if_pos hnone]
  rfl

/-- A directory that could not be renamed is copied, unless the path leads into it. -/
theorem moveTo_dir {e : Failure} (hsrc : t.lookup src = some .dir)
    (h : osRename sys src realDst t = .error e t) :
    moveTo sys src dst realDst t =
      (if src <+: dst then throw .osError
      else do
        copytree sys sys.recursionLimit src realDst
        rmtree sys src : FileM β Unit) t := by
  have hplain := plain_of_dir hsrc
  rw [moveTo_failed hplain h, if_pos ((isDir_plain hplain).mpr hsrc)]
  split_ifs
  · rfl
  · rfl

end Sources

section EntryFound
variable {b : List FileName × FileName}

/-- A file is no directory of the place it goes to. -/
theorem file_out {content : β} (hsrc : t.lookup src = some (.file content))
    (hdir : t.lookup b.1 = some .dir) (hne : src ≠ entryPath b) : ¬ src <+: b.1 ++ [b.2] := by
  intro hpre
  rcases List.prefix_concat_iff.mp hpre with heq | hpre
  · exact hne heq
  · have hbelow : t.lookup b.1 = none := by
      apply FileTree.lookup_below _ hpre
      · rintro rfl
        rw [hdir] at hsrc
        cases hsrc
      · rw [hsrc]
        simp
    rw [hbelow] at hdir
    cases hdir

/-- A file goes to any place but that of a directory. -/
theorem file_canReplace {content : β} (hsrc : t.lookup src = some (.file content))
    (hdir : t.lookup b.1 = some .dir) (hleaf : t.lookup (entryPath b) ≠ some .dir)
    (hne : src ≠ entryPath b) : CanReplace t src b.1 b.2 :=
  ⟨hdir, file_out hsrc hdir hne, .inr (.inr ⟨by rw [hsrc]; simp, hleaf⟩)⟩

/-- The copy of a directory into one of its own directories. -/
theorem copytree_into_self {l : List FileName} (limit : ℕ) (hl : l ≠ [])
    (hentry : entry sys t realDst = some b) (hsrc : t.lookup src = some .dir)
    (hnone : t.lookup (entryPath b) = none) (hself : b.1 = src ++ l) :
    ∃ e t', copytree sys limit src realDst t = .error e t' ∧ Grows (entryPath b) t t' ∧
      (Linkless t → Linkless t') := by
  have hdir := (entry_eq_some hentry).1
  cases limit with
  | zero => exact ⟨_, t, rfl, fun _ => .inl rfl, id⟩
  | succ limit =>
      obtain ⟨t', hmake, hadds, hmade⟩ := makedirs_new hentry hnone
      have hstat : stat sys t' realDst = some (entryPath b) := by
        obtain ⟨-, above, rfl, habove⟩ := entry_eq_some hentry
        exact stat_concat (stat_mono (fun r x => hadds.lookup) habove) (hadds.lookup hdir) hmade
          (by simp)
      rw [copytree_ok hsrc hmake hstat]
      have hrecurse : ∀ m s, s.lookup (src ++ [m]) = some .dir →
          s.lookup (entryPath b) = some .dir → s.lookup (entryPath b ++ [m]) = none →
            CopyOutcome (src ++ [m]) (entryPath b ++ [m]) s
              (copytree sys limit (src ++ [m]) (entryPath b ++ [m])) :=
        fun m s h h' h'' => copytree_outcome sys limit h h' h''
      have hnodup := sys.nodup_scandir t src
      have hbelow := copyInto_below hrecurse hadds hnone hmade hnodup
      have hlinkless := copyInto_linkless hrecurse hadds hnone hmade hnodup
      cases hrun : copyInto sys limit src (entryPath b) (sys.scandir t src) t' with
      | error e t'' =>
          rw [final_error hrun] at hbelow hlinkless
          exact ⟨e, t'', rfl, hadds.grows_below hnone hbelow, hlinkless⟩
      | ok u t'' =>
          have hself' : entryPath b = src ++ l ++ [b.2] := by rw [entryPath, hself]
          rw [hself] at hdir
          exact absurd hrun (copyInto_self hl hself' (fun h h' h'' => copytree_self limit h h' h'')
            hdir hnone hadds hmade t'')

/-- To a place in a directory that is there, a rename does what can be done. -/
theorem moveTo_entry (hsrc : Plain t src) (hentry : entry sys t realDst = some b)
    (hleaf : t.lookup (entryPath b) ≠ some .dir) (hself : ¬ src <+: dst → b.1 ≠ src) :
    MoveOutcome src (entryPath b) t (moveTo sys src dst realDst t) := by
  have hdir := (entry_eq_some hentry).1
  rcases osRename_cases sys src realDst t with ⟨e, hrename⟩ | ⟨-, -, -, -, -, -, hrename⟩ |
    ⟨a, b', h, ha, hb, hsome, hne, hrename⟩
  · cases hx : t.lookup src with
    | none =>
        rw [moveTo_absent hsrc hx]
        exact .refused _
    | some x =>
        cases x with
        | link target => exact absurd hx (hsrc src List.prefix_rfl target)
        | file content =>
            -- a file could have been renamed
            have hroot : src ≠ [] := by
              rintro rfl
              rw [t.root] at hx
              cases hx
            have hsome : t.lookup src ≠ none := by
              rw [hx]
              simp
            obtain ⟨a, ha, rfl⟩ := entry_source sys hsrc hsome hroot
            by_cases hne : entryPath a = entryPath b
            · unfold osRename at hrename
              rw [get_bind, ha, hentry] at hrename
              simp only at hrename
              rw [if_neg hsome, if_pos hne] at hrename
              cases hrename
            · rw [osRename_run ha hentry hsome hne (file_canReplace hx hdir hleaf hne)] at hrename
              cases hrename
        | dir =>
            rw [moveTo_dir hx hrename]
            split_ifs with hpre
            · exact .refused _
            · by_cases hnone : t.lookup (entryPath b) = none
              · -- it could have been renamed, but for a place below itself
                have hroot : src ≠ [] := by
                  rintro rfl
                  exact hpre List.nil_prefix
                have hsome : t.lookup src ≠ none := by
                  rw [hx]
                  simp
                obtain ⟨a, ha, rfl⟩ := entry_source sys hsrc hsome hroot
                have hne : entryPath a ≠ entryPath b := by
                  intro heq
                  rw [heq] at hsome
                  exact hsome hnone
                have hin : entryPath a <+: b.1 ++ [b.2] := by
                  by_contra hout
                  rw [osRename_run ha hentry hsome hne ⟨hdir, hout, .inl hnone⟩] at hrename
                  cases hrename
                obtain ⟨l, hl⟩ := (List.prefix_concat_iff.mp hin).resolve_left hne
                have hproper : l ≠ [] := by
                  rintro rfl
                  rw [List.append_nil] at hl
                  exact hself hpre hl.symm
                obtain ⟨e', t', hcopy, hgrows, hlinkless⟩ :=
                  copytree_into_self sys.recursionLimit hproper hentry hx hnone hl.symm
                rw [bind_error hcopy]
                exact .grown e' hgrows hlinkless
              · have hcopy : ∃ e, copytree sys sys.recursionLimit src realDst t = .error e t := by
                  cases sys.recursionLimit with
                  | zero => exact ⟨_, rfl⟩
                  | succ limit => exact ⟨_, copytree_error hx (makedirs_exists hentry hnone)⟩
                obtain ⟨e', hcopy⟩ := hcopy
                rw [bind_error hcopy]
                exact .refused e'
  · rw [moveTo_ok hrename]
    exact .unchanged
  · rw [moveTo_ok hrename]
    rw [hentry] at hb
    obtain rfl := Option.some.inj hb
    obtain rfl := entry_path hsrc ha
    exact .renamed rfl hsome hne h

end EntryFound

section DirectoryMade

/-- A complete copy and the removal of the source are a rename. -/
theorem rmtree_copied (sys : System β) {t'' : Tree β} (hsrc : t.lookup src = some .dir)
    (hnone : t.lookup dst = none) (hout : ¬ src <+: dst) (hadds : AddsDirs dst t t')
    (hmade : t'.lookup dst = some .dir) (hcopied : Copied src dst t t'')
    (hbelow : ChangesBelow dst t' t'') :
    ∃ dir n, dst = dir ++ [n] ∧ ∃ h : CanReplace t' src dir n,
      rmtree sys src t'' = .ok () (t'.rename src dir n h.dir h.out) := by
  have hsrc' : t'.lookup src = some .dir := hadds.lookup hsrc
  have hin : ¬ dst <+: src := by
    intro hpre
    rw [FileTree.lookup_of_absent hnone hpre] at hsrc
    cases hsrc
  have hroot : src ≠ [] := by
    rintro rfl
    exact hout List.nil_prefix
  have hdst : dst ≠ [] := by
    rintro rfl
    exact hin List.nil_prefix
  obtain ⟨dir, n, rfl⟩ := List.eq_nil_or_concat' dst |>.resolve_left hdst
  have hdir : t'.lookup dir = some .dir := by
    apply t'.closed dir n
    rw [hmade]
    simp
  have hempty : ∀ r ∈ t'.keys, dir ++ [n] <+: r → r = dir ++ [n] := by
    rintro r hr ⟨l, rfl⟩
    cases l with
    | nil => exact List.append_nil _
    | cons m l =>
        rw [t'.mem_keys] at hr
        exact absurd (FileTree.lookup_of_absent (hadds.lookup_below hnone (n := m)) ⟨l, by simp⟩) hr
  have hreplace : CanReplace t' src dir n := ⟨hdir, hout, .inr (.inl ⟨hsrc', hmade, hempty⟩)⟩
  have hsrc'' : t''.lookup src = some .dir := (hbelow src hin).trans hsrc'
  have hsome : t''.lookup src ≠ none := by
    rw [hsrc'']
    simp
  obtain ⟨a, hentry, ha⟩ := entry_source sys (plain_of_dir hsrc'') hsome hroot
  refine ⟨dir, n, rfl, hreplace, ?_⟩
  unfold rmtree
  rw [get_bind, hentry]
  simp only
  rw [entryPath] at ha
  rw [if_pos (ha ▸ hsrc'')]
  have htree : t''.remove (a.1 ++ [a.2]) (List.append_ne_nil_of_right_ne_nil _ (List.cons_ne_nil a.2 [])) =
      t'.rename src dir n hreplace.dir hreplace.out := by
    apply FileTree.ext
    intro r
    rw [FileTree.lookup_remove, FileTree.lookup_rename, ha]
    by_cases hr : dir ++ [n] <+: r
    · obtain ⟨l, rfl⟩ := hr
      have hnot : ¬ src <+: dir ++ [n] ++ l := by
        intro hpre
        rcases List.prefix_or_prefix_of_prefix hpre (List.prefix_append (dir ++ [n]) l) with h | h
        · exact hout h
        · exact hin h
      have hkept : t'.lookup (src ++ l) = t.lookup (src ++ l) := by
        rcases hadds (src ++ l) with heq | ⟨-, -, hpre⟩
        · exact heq
        · exact absurd ((List.prefix_append _ _).trans hpre) hout
      rw [if_neg hnot, if_pos (List.prefix_append _ _), List.drop_left, hkept]
      exact hcopied l
    · rw [if_neg hr, hbelow r hr]
  exact congrArg (EStateM.Result.ok ()) htree

/-- A directory goes to a place in one that is not there as a copy. -/
theorem moveTo_above (hsrc : Plain t src) (hdst : Plain t dst) (hentry : entry sys t dst = none)
    (hnone : t.lookup dst = none) : MoveOutcome src dst t (moveTo sys src dst dst t) := by
  have hrename : ∃ e, osRename sys src dst t = .error e t := by
    unfold osRename
    rw [get_bind, hentry]
    cases entry sys t src with
    | none => exact ⟨_, rfl⟩
    | some a => exact ⟨_, rfl⟩
  obtain ⟨e, hrename⟩ := hrename
  cases hx : t.lookup src with
  | none =>
      rw [moveTo_absent hsrc hx]
      exact .refused _
  | some x =>
      cases x with
      | link target => exact absurd hx (hsrc src List.prefix_rfl target)
      | file content =>
          have hisDir : ¬ isDir sys t src = true := by
            rw [isDir_plain hsrc, hx]
            simp
          have hisDir' : ¬ isDir sys t dst = true := by
            rw [isDir_plain hdst, hnone]
            simp
          rw [moveTo_failed hsrc hrename, if_neg hisDir]
          have hcopy : ∃ e, copy2 sys src dst t = .error e t := by
            unfold copy2
            rw [get_bind, stat_of_lookup hx (by simp), Option.bind_some, hx]
            simp only
            rw [if_neg hisDir']
            unfold writeFile
            rw [get_bind, stat_plain hdst, if_pos hnone]
            simp only
            unfold create
            rw [get_bind, hentry]
            exact ⟨_, rfl⟩
          obtain ⟨e', hcopy⟩ := hcopy
          rw [bind_error hcopy]
          exact .refused e'
      | dir =>
          rw [moveTo_dir hx hrename]
          split_ifs with hpre
          · exact .refused _
          · cases hlimit : sys.recursionLimit with
            | zero => exact .refused _
            | succ limit =>
                obtain ⟨hadds, hok⟩ := makedirs_spec sys false hdst
                cases hmake : makedirs sys false dst t with
                | error e' t' =>
                    rw [final_error hmake] at hadds
                    rw [bind_error (copytree_error hx hmake)]
                    exact .grown e' hadds.grows hadds.linkless
                | ok u t' =>
                    rw [final_ok hmake] at hadds
                    have hmade := (hok t' hmake).2
                    have hcopy : copytree sys (limit + 1) src dst t = _ :=
                      copytree_ok hx hmake (stat_of_lookup hmade (by simp))
                    have hrecurse : ∀ m s, s.lookup (src ++ [m]) = some .dir →
                        s.lookup dst = some .dir → s.lookup (dst ++ [m]) = none →
                          CopyOutcome (src ++ [m]) (dst ++ [m]) s
                            (copytree sys limit (src ++ [m]) (dst ++ [m])) :=
                      fun m s h h' h'' => copytree_outcome sys limit h h' h''
                    have hnodup := sys.nodup_scandir t src
                    have hbelow := copyInto_below hrecurse hadds hnone hmade hnodup
                    have hlinkless := copyInto_linkless hrecurse hadds hnone hmade hnodup
                    cases hrun : copyInto sys limit src dst (sys.scandir t src) t' with
                    | error e' t'' =>
                        rw [hrun] at hcopy
                        rw [final_error hrun] at hbelow hlinkless
                        rw [bind_error hcopy]
                        exact .grown e' (hadds.grows_below hnone hbelow) hlinkless
                    | ok u' t'' =>
                        rw [hrun] at hcopy
                        rw [final_ok hrun] at hbelow
                        have hcopied := copyInto_copied hrecurse hx hadds hnone hmade hrun hpre
                        obtain ⟨dir, n, hdir, h, hrmtree⟩ :=
                          rmtree_copied sys hx hnone hpre hadds hmade hcopied hbelow
                        rw [bind_ok hcopy, hrmtree]
                        exact .copied hdir hx hnone hadds hmade h

end DirectoryMade

section Moves
variable {targetDir : List FileName}

/-- A rename to a name in a directory. -/
theorem osRename_name (sys : System β) (n : FileName) (hsrc : Plain t src)
    (htarget : Plain t targetDir) :
    ((∃ e, osRename sys src (targetDir ++ [n]) t = .error e t) ∨
      osRename sys src (targetDir ++ [n]) t = .ok () t) ∨
    ∃ h : CanReplace t src targetDir n, t.lookup src ≠ none ∧ src ≠ targetDir ++ [n] ∧
      osRename sys src (targetDir ++ [n]) t = .ok () (t.rename src targetDir n h.dir h.out) := by
  rcases osRename_cases sys src (targetDir ++ [n]) t with h | ⟨-, -, -, -, -, -, h⟩ |
    ⟨a, b, hreplace, ha, hb, hsome, hne, h⟩
  · exact .inl (.inl h)
  · exact .inl (.inr h)
  · rw [entry_plain htarget] at hb
    split_ifs at hb
    obtain rfl := Option.some.inj hb
    obtain rfl := entry_path hsrc ha
    exact .inr ⟨hreplace, hsome, hne, h⟩

/-- A rename that is possible is made. -/
theorem osRename_replaces (sys : System β) (hsrc : Plain t src) (hsome : t.lookup src ≠ none)
    (hroot : src ≠ []) (hne : src ≠ targetDir ++ [n]) (h : CanReplace t src targetDir n) :
    osRename sys src (targetDir ++ [n]) t = .ok () (t.rename src targetDir n h.dir h.out) := by
  have hentry : entry sys t (targetDir ++ [n]) = some (targetDir, n) := by
    rw [entry_plain (plain_of_dir h.dir), if_pos h.dir]
  obtain ⟨a, ha, rfl⟩ := entry_source sys hsrc hsome hroot
  exact osRename_run ha hentry hsome hne h

theorem osRename_outcome (sys : System β) (n : FileName) (hsrc : Plain t src)
    (htarget : Plain t targetDir) :
    MoveOutcome src (targetDir ++ [n]) t (osRename sys src (targetDir ++ [n]) t) := by
  rcases osRename_name sys n hsrc htarget with (⟨e, h⟩ | h) | ⟨hreplace, hsome, hne, h⟩
  · rw [h]
    exact .refused e
  · rw [h]
    exact .unchanged
  · rw [h]
    exact .renamed rfl hsome hne hreplace

theorem isDir_eq_true {p : List FileName} (h : isDir sys t p = true) :
    ∃ found, stat sys t p = some found ∧ t.lookup found = some .dir := by
  rw [isDir] at h
  cases hstat : stat sys t p with
  | none =>
      rw [hstat] at h
      cases h
  | some found =>
      refine ⟨found, rfl, ?_⟩
      rw [hstat, Option.bind_some] at h
      rcases hfound : t.lookup found with _ | _ | _ | _
      · rw [hfound] at h
        cases h
      · rfl
      · rw [hfound] at h
        cases h
      · rw [hfound] at h
        cases h

/-- The root is not moved. -/
theorem shutilMove_root (sys : System β) (dst : List FileName) (t : Tree β) :
    ∃ e, shutilMove sys [] dst t = .error e t := by
  have hrename : ∀ realDst, osRename sys [] realDst t = .error .osError t := fun _ => rfl
  unfold shutilMove
  rw [get_bind]
  split_ifs
  · exact ⟨_, hrename dst⟩
  · exact ⟨_, rfl⟩
  · rw [moveTo_dir t.root (hrename dst), if_pos List.nil_prefix]
    exact ⟨_, rfl⟩

/-- A move puts a path where it is told to, or below what a link there leads to. -/
theorem shutilMove_outcome (sys : System β) (hsrc : Plain t src) (htarget : Plain t targetDir) :
    ∃ q, MoveOutcome src q t (shutilMove sys src (targetDir ++ src.getLast?.toList) t) ∧
      (q = targetDir ++ src.getLast?.toList ∨
        ∃ found n, stat sys t (targetDir ++ src.getLast?.toList) = some found ∧ q = found ++ [n] ∧
          ∀ content, t.lookup q ≠ some (.file content)) := by
  rcases List.eq_nil_or_concat' src with rfl | ⟨above, n, rfl⟩
  · obtain ⟨e, h⟩ := shutilMove_root sys (targetDir ++ ([] : List FileName).getLast?.toList) t
    rw [h]
    exact ⟨_, .refused e, .inl rfl⟩
  · rw [List.getLast?_concat, Option.toList_some]
    set src := above ++ [n] with hsrcdef
    set dst := targetDir ++ [n] with hdst
    by_cases hisDir : isDir sys t dst = true
    · obtain ⟨found, hstat, hfound⟩ := isDir_eq_true hisDir
      by_cases hsame : sameFile sys t src dst = true ∧ isLink sys t src = false
      · refine ⟨dst, ?_, .inl rfl⟩
        unfold shutilMove
        rw [get_bind, if_pos hisDir, if_pos hsame]
        exact osRename_outcome sys n hsrc htarget
      · by_cases hexists : pathExists sys t (dst ++ [n]) = true
        · refine ⟨dst, ?_, .inl rfl⟩
          unfold shutilMove
          rw [get_bind, if_pos hisDir, if_neg hsame, hsrcdef, List.getLast?_concat]
          simp only
          rw [if_pos hexists]
          exact .refused _
        · have hentry : entry sys t (dst ++ [n]) = some (found, n) := by
            rw [entry_concat, hstat, Option.bind_some, if_pos hfound]
          have hleaf : ∀ x, (∀ target, x ≠ .link target) → t.lookup (found ++ [n]) ≠ some x := by
            intro x hlink hx
            apply hexists
            rw [pathExists, stat_concat hstat hfound hx hlink]
            rfl
          have hself : found ≠ src := by
            rintro rfl
            apply hsame
            have hstat' : stat sys t src = some src := stat_of_lookup hfound (by simp)
            constructor
            · rw [sameFile, pathExists, hstat', hstat]
              simp
            · rw [isLink]
              cases hlstat : lstat sys t src with
              | none => rfl
              | some x =>
                  cases x with
                  | dir => rfl
                  | file content => rfl
                  | link target => exact absurd hlstat (lstat_source hsrc target)
          refine ⟨found ++ [n], ?_, .inr ⟨found, n, hstat, rfl, fun content => hleaf _ (by simp)⟩⟩
          unfold shutilMove
          rw [get_bind, if_pos hisDir, if_neg hsame, hsrcdef, List.getLast?_concat]
          simp only
          rw [if_neg hexists]
          exact moveTo_entry hsrc hentry (hleaf _ (by simp)) fun _ => hself
    · refine ⟨dst, ?_, .inl rfl⟩
      unfold shutilMove
      rw [get_bind, if_neg hisDir]
      have hentry : entry sys t dst = _ := entry_plain htarget
      by_cases hdir : t.lookup targetDir = some .dir
      · rw [if_pos hdir] at hentry
        apply moveTo_entry hsrc hentry
        · intro hleaf
          exact hisDir ((isDir_plain (plain_of_dir hleaf)).mpr hleaf)
        · rintro hout rfl
          exact hout (List.prefix_append _ _)
      · rw [if_neg hdir] at hentry
        have hnone : t.lookup dst = none := by
          by_contra hsome
          exact hdir (t.closed targetDir n hsome)
        have hplain : Plain t dst := by
          apply htarget.concat
          rw [← hdst, hnone]
          simp
        exact moveTo_above hsrc hplain hentry hnone

end Moves

end SmartMedia.Storage
