import SmartMedia.Storage.LocalStorage

/-!
# What the calls do

Paths without links on them lead where they say. Every call leaves the tree as it is, or adds to
it where nothing was, or puts what is below one path in the place of what is below another.
-/
namespace SmartMedia.Storage
open Media StateProgram LocalStorageProvider

variable {β : Type} {sys : System β} {t t' : Tree β} {p q r dir : List FileName} {n : FileName}

section Paths

/-- No link is on a path. -/
def Plain (t : Tree β) (p : List FileName) : Prop :=
  ∀ q, q <+: p → ∀ target, t.lookup q ≠ some (.link target)

/-- There are no links. -/
def Linkless (t : Tree β) : Prop := ∀ p target, t.lookup p ≠ some (.link target)

theorem Linkless.plain (h : Linkless t) (p : List FileName) : Plain t p := fun q _ => h q

theorem Plain.mono (h : Plain t q) (hpq : p <+: q) : Plain t p :=
  fun r hr => h r (hr.trans hpq)

theorem plain_nil : Plain t [] := by
  intro q hq target
  rw [List.prefix_nil.mp hq, t.root]
  simp

theorem Plain.concat (h : Plain t p) (hn : ∀ target, t.lookup (p ++ [n]) ≠ some (.link target)) :
    Plain t (p ++ [n]) := by
  intro q hq target
  rcases List.prefix_concat_iff.mp hq with rfl | hq
  · exact hn target
  · exact h q hq target

/-- What is there and no link has no links on its path. -/
theorem plain_of_lookup (h : t.lookup p ≠ none) (hlink : ∀ target, t.lookup p ≠ some (.link target)) :
    Plain t p := by
  rintro q ⟨s, rfl⟩ target hq
  cases s with
  | nil =>
      rw [List.append_nil] at hlink
      exact hlink target hq
  | cons n s =>
      rw [FileTree.lookup_above h] at hq
      cases hq

theorem plain_of_dir (h : t.lookup p = some .dir) : Plain t p :=
  plain_of_lookup (by rw [h]; exact Option.some_ne_none _) fun target => by rw [h]; simp

/-- A path without links is its own target. -/
theorem walkWith_names {onLink : List FileName → List Part → Option (List FileName)}
    (hdir : t.lookup dir ≠ none) (hplain : Plain t (dir ++ p)) :
    walkWith t onLink dir (names p) =
      if t.lookup (dir ++ p) = none then none else some (dir ++ p) := by
  induction p generalizing dir with
  | nil =>
      rw [List.append_nil, if_neg hdir]
      rfl
  | cons n p ih =>
      have hassoc : dir ++ n :: p = (dir ++ [n]) ++ p := by simp
      rw [names, List.map_cons, walkWith]
      by_cases hd : t.lookup dir = some .dir
      · rw [if_neg (not_not_intro hd)]
        cases hn : t.lookup (dir ++ [n]) with
        | none =>
            have hbelow : t.lookup (dir ++ n :: p) = none :=
              FileTree.lookup_of_absent hn (hassoc ▸ List.prefix_append _ _)
            rw [if_pos hbelow]
        | some x =>
            have hlink : ∀ target, x ≠ .link target := by
              rintro target rfl
              exact hplain (dir ++ [n]) (hassoc ▸ List.prefix_append _ _) target hn
            have hne : t.lookup (dir ++ [n]) ≠ none := by
              rw [hn]
              exact Option.some_ne_none x
            have hrest := ih hne (hassoc ▸ hplain)
            rw [← hassoc] at hrest
            cases x with
            | dir => exact hrest
            | file content => exact hrest
            | link target => exact absurd rfl (hlink target)
      · have hbelow : t.lookup (dir ++ n :: p) = none :=
          FileTree.lookup_below hd (List.prefix_append _ _) (by simp)
        rw [if_pos hd, if_pos hbelow]

theorem walkWith_concat {onLink : List FileName → List Part → Option (List FileName)}
    {found : List FileName} {ps : List Part} {x : Node Path β} (hfound : t.lookup found = some .dir)
    (hx : t.lookup (found ++ [n]) = some x) (hlink : ∀ target, x ≠ .link target)
    (honLink : ∀ dir ps, onLink dir ps = some found →
      onLink dir (ps ++ [.name n]) = some (found ++ [n]))
    (h : walkWith t onLink dir ps = some found) :
    walkWith t onLink dir (ps ++ [.name n]) = some (found ++ [n]) := by
  induction ps generalizing dir with
  | nil =>
      cases h
      rw [List.nil_append, walkWith, if_neg (not_not_intro hfound), hx]
      cases x with
      | dir => rfl
      | file content => rfl
      | link target => exact absurd rfl (hlink target)
  | cons part ps ih =>
      rw [List.cons_append]
      cases part with
      | up =>
          rw [walkWith] at h ⊢
          split_ifs at h ⊢
          exact ih h
      | name m =>
          rw [walkWith] at h ⊢
          split_ifs at h ⊢
          cases hm : t.lookup (dir ++ [m]) with
          | none =>
              rw [hm] at h
              cases h
          | some y =>
              rw [hm] at h
              cases y with
              | dir => exact ih h
              | file content => exact ih h
              | link target =>
                  simp only at h ⊢
                  rw [← List.append_assoc]
                  exact honLink _ _ h

/-- One name more leads one name further, but for a link. -/
theorem stat_concat {found : List FileName} {x : Node Path β} (hstat : stat sys t p = some found)
    (hfound : t.lookup found = some .dir) (hx : t.lookup (found ++ [n]) = some x)
    (hlink : ∀ target, x ≠ .link target) : stat sys t (p ++ [n]) = some (found ++ [n]) := by
  have hwalk : ∀ limit dir ps, walk t limit dir ps = some found →
      walk t limit dir (ps ++ [.name n]) = some (found ++ [n]) := by
    intro limit
    induction limit with
    | zero => exact fun dir ps => walkWith_concat hfound hx hlink fun _ _ hno => by cases hno
    | succ limit ih => exact fun dir ps => walkWith_concat hfound hx hlink ih
  rw [stat, names, List.map_append]
  exact hwalk _ _ _ hstat

/-- What is added changes no way. -/
theorem walkWith_mono {onLink onLink' : List FileName → List Part → Option (List FileName)}
    {found : List FileName} {ps : List Part}
    (hmono : ∀ r x, t.lookup r = some x → t'.lookup r = some x)
    (honLink : ∀ dir ps, onLink dir ps = some found → onLink' dir ps = some found)
    (h : walkWith t onLink dir ps = some found) : walkWith t' onLink' dir ps = some found := by
  induction ps generalizing dir with
  | nil => exact h
  | cons part ps ih =>
      have hdir : t.lookup dir = some .dir := by
        by_contra hdir
        rw [walkWith.eq_def] at h
        simp only [if_pos hdir] at h
        cases h
      cases part with
      | up =>
          rw [walkWith, if_neg (not_not_intro hdir)] at h
          rw [walkWith, if_neg (not_not_intro (hmono _ _ hdir))]
          exact ih h
      | name m =>
          rw [walkWith, if_neg (not_not_intro hdir)] at h
          rw [walkWith, if_neg (not_not_intro (hmono _ _ hdir))]
          cases hm : t.lookup (dir ++ [m]) with
          | none =>
              rw [hm] at h
              cases h
          | some y =>
              rw [hm] at h
              rw [hmono _ _ hm]
              cases y with
              | dir => exact ih h
              | file content => exact ih h
              | link target => exact honLink _ _ h

theorem stat_mono {found : List FileName} (hmono : ∀ r x, t.lookup r = some x → t'.lookup r = some x)
    (h : stat sys t p = some found) : stat sys t' p = some found := by
  have hwalk : ∀ limit dir ps, walk t limit dir ps = some found →
      walk t' limit dir ps = some found := by
    intro limit
    induction limit with
    | zero => exact fun dir ps => walkWith_mono hmono fun _ _ hno => by cases hno
    | succ limit ih => exact fun dir ps => walkWith_mono hmono ih
  exact hwalk _ _ _ h

theorem stat_plain (h : Plain t p) :
    stat sys t p = if t.lookup p = none then none else some p := by
  have hroot : t.lookup [] ≠ none := by
    rw [t.root]
    exact Option.some_ne_none _
  have hwalk : ∀ onLink, walkWith t onLink [] (names p) =
      if t.lookup p = none then none else some p := fun onLink => walkWith_names hroot h
  rw [stat]
  cases sys.symlinkLimit with
  | zero => exact hwalk _
  | succ limit => exact hwalk _

theorem stat_of_lookup {x : Node Path β} (h : t.lookup p = some x)
    (hlink : ∀ target, x ≠ .link target) : stat sys t p = some p := by
  have hp : t.lookup p ≠ none := by
    rw [h]
    exact Option.some_ne_none x
  rw [stat_plain (plain_of_lookup hp fun target ht => hlink target (Option.some.inj (h.symm.trans ht))),
    if_neg hp]

theorem entry_concat : entry sys t (p ++ [n]) =
    (stat sys t p).bind fun dir => if t.lookup dir = some .dir then some (dir, n) else none := by
  rw [entry, List.getLast?_concat, List.dropLast_concat]

theorem entry_plain (h : Plain t p) :
    entry sys t (p ++ [n]) = if t.lookup p = some .dir then some (p, n) else none := by
  rw [entry_concat, stat_plain h]
  split_ifs with hnone hdir hdir
  · rw [hnone] at hdir
    cases hdir
  · rfl
  · rw [Option.bind_some, if_pos hdir]
  · rw [Option.bind_some, if_neg hdir]

theorem entry_eq_some {m : FileName} (h : entry sys t p = some (dir, m)) :
    t.lookup dir = some .dir ∧ ∃ above, p = above ++ [m] ∧ stat sys t above = some dir := by
  cases hp : p.getLast? with
  | none =>
      rw [entry, hp] at h
      cases h
  | some last =>
      obtain ⟨above, rfl⟩ := List.getLast?_eq_some_iff.mp hp
      rw [entry_concat, Option.bind_eq_some_iff] at h
      obtain ⟨found, hstat, hfound⟩ := h
      split_ifs at hfound with hdir
      cases hfound
      exact ⟨hdir, above, rfl, hstat⟩

/-- `realpath` yields paths without links. -/
theorem realpathWith_plain {onLink : List FileName → List Part → Except Failure (List FileName)}
    (honLink : ∀ dir ps r, Plain t dir → onLink dir ps = .ok r → Plain t r) {ps : List Part}
    (hdir : Plain t dir) (h : realpathWith t onLink dir ps = .ok r) : Plain t r := by
  induction ps generalizing dir with
  | nil => exact Except.ok.inj h ▸ hdir
  | cons part ps ih =>
      cases part with
      | up => exact ih (hdir.mono (List.dropLast_prefix dir)) h
      | name n =>
          rw [realpathWith] at h
          split_ifs at h
          split at h
          · next target htarget =>
              cases hfound : onLink (linkStart dir target) (parts target) with
              | error e =>
                  rw [hfound] at h
                  cases h
              | ok found =>
                  rw [hfound] at h
                  refine ih (honLink _ _ _ ?_ hfound) h
                  rw [linkStart]
                  split_ifs
                  · exact plain_nil
                  · exact hdir
          · next hno => exact ih (hdir.concat fun target htarget => hno target htarget) h

theorem realpath_plain {limit : ℕ} {ps : List Part} (hdir : Plain t dir)
    (h : realpath t limit dir ps = .ok r) : Plain t r := by
  induction limit generalizing dir ps r with
  | zero => exact realpathWith_plain (fun _ _ _ _ hno => by cases hno) hdir h
  | succ limit ih => exact realpathWith_plain (fun _ _ _ hplain hok => ih hplain hok) hdir h

theorem resolvePath_run (base : List FileName) (path : Path) (t : Tree β) :
    resolvePath base path t =
      if path = [] then .error .raised t
      else
        match realpath t t.keys.card [] (candidate base path) with
        | .error e => .error e t
        | .ok resolved => if base <+: resolved then .ok resolved t else .error .raised t := by
  unfold resolvePath
  split_ifs with hpath
  · rfl
  · beta_reduce
    rw [get_bind]
    cases hreal : realpath t t.keys.card [] (candidate base path) with
    | error e => rfl
    | ok resolved =>
        simp only
        split_ifs
        · rfl
        · rfl

/-- What `_resolve_path` yields is below the base directory. -/
theorem resolvePath_cases (base : List FileName) (path : Path) (t : Tree β) :
    (∃ e, resolvePath base path t = .error e t) ∨
      ∃ resolved, resolvePath base path t = .ok resolved t ∧
        Plain t resolved ∧ base <+: resolved := by
  rw [resolvePath_run]
  split_ifs
  · exact .inl ⟨_, rfl⟩
  · split
    · exact .inl ⟨_, rfl⟩
    · next resolved hresolved =>
        split_ifs with hbase
        · exact .inr ⟨resolved, rfl, realpath_plain plain_nil hresolved, hbase⟩
        · exact .inl ⟨_, rfl⟩

end Paths

section Growth

/-- Only directories are new, on the way to a path. -/
def AddsDirs (q : List FileName) (t t' : Tree β) : Prop :=
  ∀ r, t'.lookup r = t.lookup r ∨ t.lookup r = none ∧ t'.lookup r = some .dir ∧ r <+: q

/-- What there was is still there; what is new is on the way to a path or below it. -/
def Grows (q : List FileName) (t t' : Tree β) : Prop :=
  ∀ r, t'.lookup r = t.lookup r ∨ t.lookup r = none ∧ (r <+: q ∨ q <+: r)

/-- Only below a path there is a difference. -/
def ChangesBelow (q : List FileName) (t t' : Tree β) : Prop :=
  ∀ r, ¬ q <+: r → t'.lookup r = t.lookup r

theorem AddsDirs.refl (q : List FileName) (t : Tree β) : AddsDirs q t t := fun _ => .inl rfl

theorem AddsDirs.trans {t'' : Tree β} (h : AddsDirs q t t') (h' : AddsDirs q t' t'') :
    AddsDirs q t t'' := by
  intro r
  rcases h r with heq | ⟨hnone, hdir, hr⟩
  · rcases h' r with heq' | ⟨hnone', hdir', hr⟩
    · exact .inl (heq'.trans heq)
    · exact .inr ⟨heq ▸ hnone', hdir', hr⟩
  · rcases h' r with heq' | ⟨hnone', -, -⟩
    · exact .inr ⟨hnone, heq'.trans hdir, hr⟩
    · rw [hnone'] at hdir
      cases hdir

theorem AddsDirs.mono (h : AddsDirs p t t') (hpq : p <+: q) : AddsDirs q t t' :=
  fun r => (h r).imp_right fun hr => ⟨hr.1, hr.2.1, hr.2.2.trans hpq⟩

theorem AddsDirs.grows (h : AddsDirs q t t') : Grows q t t' :=
  fun r => (h r).imp_right fun hr => ⟨hr.1, .inl hr.2.2⟩

/-- What is there stays. -/
theorem AddsDirs.lookup {x : Node Path β} (h : AddsDirs q t t') (hr : t.lookup r = some x) :
    t'.lookup r = some x := by
  rcases h r with heq | ⟨hnone, -, -⟩
  · rw [heq, hr]
  · rw [hr] at hnone
    cases hnone

theorem AddsDirs.plain (h : AddsDirs q t t') (hp : Plain t p) : Plain t' p := by
  intro r hr target htarget
  rcases h r with heq | ⟨-, hdir, -⟩
  · exact hp r hr target (heq ▸ htarget)
  · rw [hdir] at htarget
    cases htarget

theorem AddsDirs.linkless (h : AddsDirs q t t') (ht : Linkless t) : Linkless t' := by
  intro r target htarget
  rcases h r with heq | ⟨-, hdir, -⟩
  · exact ht r target (heq ▸ htarget)
  · rw [hdir] at htarget
    cases htarget

theorem AddsDirs.contents_eq (h : AddsDirs q t t') : t'.contents = t.contents := by
  apply FileTree.contents_congr
  intro r
  rcases h r with heq | ⟨hnone, hdir, -⟩
  · rw [heq]
  · rw [hnone, hdir]
    rfl

theorem Grows.contents_le (h : Grows q t t') : t.contents ≤ t'.contents := by
  apply FileTree.contents_le
  intro r
  rcases h r with heq | ⟨hnone, -⟩
  · rw [heq]
  · rw [hnone]
    exact Multiset.zero_le _

/-- Below what was not there, everything is new. -/
theorem AddsDirs.grows_below {t'' : Tree β} (h : AddsDirs q t t') (hnone : t.lookup q = none)
    (hbelow : ChangesBelow q t' t'') : Grows q t t'' := by
  intro r
  by_cases hr : q <+: r
  · exact .inr ⟨FileTree.lookup_of_absent hnone hr, .inr hr⟩
  · rw [hbelow r hr]
    exact h.grows r

end Growth

section Creation

theorem create_cases (sys : System β) (x : Node Path β) (p : List FileName) (t : Tree β) :
    (∃ e, create sys x p t = .error e t) ∨
      ∃ dir n, ∃ hdir : t.lookup dir = some .dir, ∃ hleaf : t.lookup (dir ++ [n]) ≠ some .dir,
        entry sys t p = some (dir, n) ∧ t.lookup (dir ++ [n]) = none ∧
          create sys x p t = .ok () (t.insert dir n x hdir hleaf) := by
  unfold create
  rw [get_bind]
  cases hentry : entry sys t p with
  | none => exact .inl ⟨_, rfl⟩
  | some found =>
      obtain ⟨dir, n⟩ := found
      simp only
      split_ifs with hnew
      · exact .inr ⟨dir, n, hnew.1, hnew.2 ▸ Option.some_ne_none _ |>.symm, rfl, hnew.2, rfl⟩
      · exact .inl ⟨_, rfl⟩

/-- A new name in a directory that is there. -/
theorem create_new (sys : System β) (x : Node Path β) (hdir : t.lookup p = some .dir)
    (hnone : t.lookup (p ++ [n]) = none) :
    ∃ t', create sys x (p ++ [n]) t = .ok () t' ∧
      ∀ r, t'.lookup r = if r = p ++ [n] then some x else t.lookup r := by
  have hentry : entry sys t (p ++ [n]) = some (p, n) := by
    rw [entry_plain (plain_of_dir hdir), if_pos hdir]
  unfold create
  rw [get_bind, hentry]
  simp only
  rw [dif_pos ⟨hdir, hnone⟩]
  exact ⟨_, rfl, fun r => rfl⟩

/-- A path without links becomes a directory, if nothing was there. -/
theorem mkdir_cases (sys : System β) (hp : Plain t p) :
    (∃ e, mkdir sys p t = .error e t) ∨
      ∃ t', mkdir sys p t = .ok () t' ∧ AddsDirs p t t' ∧ t.lookup p = none ∧
        t'.lookup p = some .dir := by
  rw [mkdir]
  rcases create_cases sys .dir p t with ⟨e, h⟩ | ⟨dir, n, hdir, hleaf, hentry, hnone, h⟩
  · exact .inl ⟨e, h⟩
  · obtain ⟨-, above, rfl, hstat⟩ := entry_eq_some hentry
    rw [entry_plain (hp.mono (List.prefix_append _ _))] at hentry
    split_ifs at hentry
    cases hentry
    refine .inr ⟨_, h, ?_, hnone, ?_⟩
    · intro r
      rw [FileTree.lookup_insert]
      split_ifs with hr
      · exact .inr ⟨hr ▸ hnone, rfl, hr ▸ List.prefix_rfl⟩
      · exact .inl rfl
    · rw [FileTree.lookup_insert, if_pos rfl]

theorem isDir_plain (h : Plain t p) : isDir sys t p = true ↔ t.lookup p = some .dir := by
  rw [isDir, stat_plain h]
  split_ifs with hnone
  · rw [hnone]
    simp
  · rw [Option.bind_some]
    rcases hp : t.lookup p with _ | _ | _ | _ <;> simp

theorem mkdirUnlessDir_cases (sys : System β) (existOk : Bool) (hp : Plain t p) :
    (∃ e, mkdirUnlessDir sys existOk p t = .error e t) ∨
      ∃ t', mkdirUnlessDir sys existOk p t = .ok () t' ∧ AddsDirs p t t' ∧
        (existOk = false → t.lookup p = none) ∧ t'.lookup p = some .dir := by
  rw [mkdirUnlessDir]
  rcases mkdir_cases sys hp with ⟨e, h⟩ | ⟨t', h, hadds, hnone, hdir⟩
  · rw [tryCatch_error h, get_bind]
    split_ifs with hexists
    · exact .inr ⟨t, rfl, .refl p t, fun hno => by simp [hno] at hexists,
        (isDir_plain hp).mp hexists.2⟩
    · exact .inl ⟨e, rfl⟩
  · rw [tryCatch_ok h]
    exact .inr ⟨t', rfl, hadds, fun _ => hnone, hdir⟩

/-- `os.makedirs` adds directories, and the last one if it ends normally. -/
theorem makedirs_spec (sys : System β) (existOk : Bool) (hp : Plain t p) :
    AddsDirs p t (final (makedirs sys existOk p) t) ∧
      ∀ t', makedirs sys existOk p t = .ok () t' →
        (existOk = false → t.lookup p = none) ∧ t'.lookup p = some .dir := by
  have hlast : ∀ (p : List FileName) (t : Tree β), Plain t p →
      AddsDirs p t (final (mkdirUnlessDir sys existOk p) t) ∧
        ∀ t', mkdirUnlessDir sys existOk p t = .ok () t' →
          (existOk = false → t.lookup p = none) ∧ t'.lookup p = some .dir := by
    intro p t hp
    rcases mkdirUnlessDir_cases sys existOk hp with ⟨e, h⟩ | ⟨t', h, hadds, hnone, hdir⟩
    · rw [final_error h, h]
      exact ⟨.refl p t, fun _ hno => by cases hno⟩
    · rw [final_ok h, h]
      exact ⟨hadds, fun _ heq => by cases heq; exact ⟨hnone, hdir⟩⟩
  rw [makedirs]
  obtain ⟨l, rfl⟩ : ∃ l : List FileName, p = l.reverse := ⟨p.reverse, p.reverse_reverse.symm⟩
  rw [List.reverse_reverse]
  induction l generalizing t with
  | nil => exact hlast [] t hp
  | cons n above ih =>
      have hrev : (n :: above).reverse = above.reverse ++ [n] := List.reverse_cons
      rw [hrev] at hp ⊢
      have habove : above.reverse <+: above.reverse ++ [n] := List.prefix_append _ _
      -- either the directories above fail, or the last one is made after them
      have hrun : ∃ t', AddsDirs above.reverse t t' ∧
          ((∃ e, makedirsUp sys existOk (n :: above) t = .error e t') ∨
            makedirsUp sys existOk (n :: above) t =
              mkdirUnlessDir sys existOk (above.reverse ++ [n]) t') := by
        rw [makedirsUp, get_bind]
        split_ifs
        · have hfirst := (ih (hp.mono habove)).1
          cases hup : makedirsUp sys existOk above t with
          | ok u t' =>
              rw [final_ok hup] at hfirst
              exact ⟨t', hfirst, .inr (bind_ok (tryCatch_ok hup))⟩
          | error e t' =>
              rw [final_error hup] at hfirst
              refine ⟨t', hfirst, ?_⟩
              by_cases he : e = .fileExists
              · right
                refine bind_ok (a := ()) ((tryCatch_error hup).trans ?_)
                rw [if_pos he]
                rfl
              · left
                refine ⟨e, bind_error ((tryCatch_error hup).trans ?_)⟩
                rw [if_neg he]
                rfl
        · exact ⟨t, .refl _ t, .inr rfl⟩
      obtain ⟨t', hadds, ⟨e, h⟩ | h⟩ := hrun
      · rw [final_error h, h]
        exact ⟨hadds.mono habove, fun _ hno => by cases hno⟩
      · have hfinal : final (makedirsUp sys existOk (n :: above)) t =
            final (mkdirUnlessDir sys existOk (above.reverse ++ [n])) t' := by
          rw [final, h, final]
        obtain ⟨hmade, hok⟩ := hlast _ _ (hadds.plain hp)
        rw [hfinal, h]
        refine ⟨(hadds.mono habove).trans hmade, fun t'' ht => ?_⟩
        obtain ⟨hnone, hdir⟩ := hok t'' ht
        refine ⟨fun hexist => ?_, hdir⟩
        rcases hadds (above.reverse ++ [n]) with heq | ⟨hnone', -, -⟩
        · rw [← heq]
          exact hnone hexist
        · exact hnone'

/-- Where the directory above is there, only the last one is made. -/
theorem makedirs_entry {a : List FileName × FileName} {existOk : Bool}
    (hentry : entry sys t p = some a) : makedirs sys existOk p t = mkdirUnlessDir sys existOk p t := by
  obtain ⟨-, above, rfl, hstat⟩ := entry_eq_some hentry
  have hexists : pathExists sys t above.reverse.reverse = true := by
    rw [List.reverse_reverse, pathExists, hstat]
    rfl
  rw [makedirs, List.reverse_append, List.reverse_singleton, List.singleton_append, makedirsUp,
    get_bind, hexists, if_neg (by simp), List.reverse_reverse]

theorem makedirs_new {a : List FileName × FileName} (hentry : entry sys t p = some a)
    (hnone : t.lookup (a.1 ++ [a.2]) = none) :
    ∃ t', makedirs sys false p t = .ok () t' ∧ AddsDirs (a.1 ++ [a.2]) t t' ∧
      t'.lookup (a.1 ++ [a.2]) = some .dir := by
  have hdir := (entry_eq_some hentry).1
  have hmkdir : mkdir sys p t = .ok () (t.insert a.1 a.2 .dir hdir (by rw [hnone]; simp)) := by
    rw [mkdir]
    unfold create
    rw [get_bind, hentry]
    simp only
    rw [dif_pos ⟨hdir, hnone⟩]
    rfl
  rw [makedirs_entry hentry, mkdirUnlessDir, tryCatch_ok hmkdir]
  refine ⟨_, rfl, ?_, ?_⟩
  · intro r
    rw [FileTree.lookup_insert]
    split_ifs with hr
    · exact .inr ⟨hr ▸ hnone, rfl, hr ▸ List.prefix_rfl⟩
    · exact .inl rfl
  · rw [FileTree.lookup_insert, if_pos rfl]

theorem mkdir_exists {a : List FileName × FileName} (hentry : entry sys t p = some a)
    (hsome : t.lookup (a.1 ++ [a.2]) ≠ none) : mkdir sys p t = .error .fileExists t := by
  rw [mkdir]
  unfold create
  rw [get_bind, hentry]
  simp only
  rw [dif_neg fun h => hsome h.2]
  rfl

theorem makedirs_exists {a : List FileName × FileName} (hentry : entry sys t p = some a)
    (hsome : t.lookup (a.1 ++ [a.2]) ≠ none) :
    makedirs sys false p t = .error .fileExists t := by
  rw [makedirs_entry hentry, mkdirUnlessDir, tryCatch_error (mkdir_exists hentry hsome)]
  rfl

/-- A link in a directory is not replaced. -/
theorem makedirs_name (sys : System β) (existOk : Bool) (n : FileName) (hp : Plain t p) :
    AddsDirs (p ++ [n]) t (final (makedirs sys existOk (p ++ [n])) t) := by
  by_cases hn : ∀ target, t.lookup (p ++ [n]) ≠ some (.link target)
  · exact (makedirs_spec sys existOk (hp.concat hn)).1
  · push Not at hn
    obtain ⟨target, hn⟩ := hn
    have hsome : t.lookup (p ++ [n]) ≠ none := by
      rw [hn]
      simp
    have hentry : entry sys t (p ++ [n]) = some (p, n) := by
      rw [entry_plain hp, if_pos (t.closed p n hsome)]
    have hrun : final (makedirs sys existOk (p ++ [n])) t = t := by
      rw [final, makedirs_entry hentry, mkdirUnlessDir,
        tryCatch_error (mkdir_exists hentry hsome), get_bind]
      split_ifs
      · rfl
      · rfl
    rw [hrun]
    exact .refl _ t

end Creation

section Renaming

/-- The path of an entry. -/
abbrev entryPath (e : List FileName × FileName) : List FileName := e.1 ++ [e.2]

/-- `os.rename` moves one entry to another, or changes nothing. -/
theorem osRename_cases (sys : System β) (src dst : List FileName) (t : Tree β) :
    (∃ e, osRename sys src dst t = .error e t) ∨
      (∃ a b, entry sys t src = some a ∧ entry sys t dst = some b ∧ t.lookup (entryPath a) ≠ none ∧
        entryPath a = entryPath b ∧ osRename sys src dst t = .ok () t) ∨
      ∃ a b, ∃ h : CanReplace t (entryPath a) b.1 b.2, entry sys t src = some a ∧
        entry sys t dst = some b ∧ t.lookup (entryPath a) ≠ none ∧ entryPath a ≠ entryPath b ∧
          osRename sys src dst t = .ok () (t.rename (entryPath a) b.1 b.2 h.dir h.out) := by
  unfold osRename
  rw [get_bind]
  cases hsrc : entry sys t src with
  | none => exact .inl ⟨_, rfl⟩
  | some a =>
      cases hdst : entry sys t dst with
      | none => exact .inl ⟨_, rfl⟩
      | some b =>
          simp only
          split_ifs with hnone heq hreplace
          · exact .inl ⟨_, rfl⟩
          · exact .inr (.inl ⟨a, b, rfl, rfl, hnone, heq, rfl⟩)
          · exact .inr (.inr ⟨a, b, hreplace, rfl, rfl, hnone, heq, rfl⟩)
          · exact .inl ⟨_, rfl⟩

theorem entry_path {a : List FileName × FileName} (hp : Plain t p) (h : entry sys t p = some a) :
    entryPath a = p := by
  obtain ⟨-, above, rfl, -⟩ := entry_eq_some h
  rw [entry_plain (hp.mono (List.prefix_append _ _))] at h
  split_ifs at h
  rw [entryPath, ← Option.some.inj h]

/-- Where nothing is, nothing is renamed. -/
theorem osRename_absent (sys : System β) (dst : List FileName) (hp : Plain t p)
    (hnone : t.lookup p = none) : ∃ e, osRename sys p dst t = .error e t := by
  rcases osRename_cases sys p dst t with h | ⟨a, b, hentry, -, hsome, -⟩ |
    ⟨a, b, -, hentry, -, hsome, -⟩
  · exact h
  · rw [entry_path hp hentry] at hsome
    exact absurd hnone hsome
  · rw [entry_path hp hentry] at hsome
    exact absurd hnone hsome

/-- Where an entry may replace another it does. -/
theorem osRename_run {a b : List FileName × FileName} {src dst : List FileName}
    (hsrc : entry sys t src = some a) (hdst : entry sys t dst = some b)
    (hsome : t.lookup (entryPath a) ≠ none) (hne : entryPath a ≠ entryPath b)
    (h : CanReplace t (entryPath a) b.1 b.2) :
    osRename sys src dst t = .ok () (t.rename (entryPath a) b.1 b.2 h.dir h.out) := by
  unfold osRename
  rw [get_bind, hsrc, hdst]
  simp only
  rw [if_neg hsome, if_neg hne, dif_pos h]
  rfl

end Renaming

end SmartMedia.Storage
