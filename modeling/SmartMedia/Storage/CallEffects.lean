import SmartMedia.Storage.SafeCalls

/-!
# What calls that raise leave

A safe operation that raises has made directories at most; copying to a place where nothing is may also
leave a part of the copy there.
-/
namespace SmartMedia.Storage
open Media PosixPath StateProgram

variable {β : Type} {sys : System β} {t t' : Tree β} {p q dir : List FileName} {n : FileName}

section Kept

/-- What there was is there, as it was. -/
def Keeps (t t' : Tree β) : Prop := ∀ p x, t.lookup p = some x → t'.lookup p = some x

theorem Keeps.refl (t : Tree β) : Keeps t t := fun _ _ h => h

theorem Keeps.trans (t t' t'' : Tree β) (h : Keeps t t') (h' : Keeps t' t'') : Keeps t t'' :=
  fun p x hp => h' p x (h p x hp)

theorem MoreDirs.refl (t : Tree β) : MoreDirs t t := fun _ => .inl rfl

theorem MoreDirs.trans (t t' t'' : Tree β) (h : MoreDirs t t') (h' : MoreDirs t' t'') :
    MoreDirs t t'' := by
  intro p
  rcases h p with heq | ⟨hnone, hdir⟩
  · rcases h' p with heq' | ⟨hnone', hdir'⟩
    · exact .inl (heq'.trans heq)
    · exact .inr ⟨heq ▸ hnone', hdir'⟩
  · rcases h' p with heq' | ⟨hnone', -⟩
    · exact .inr ⟨hnone, heq'.trans hdir⟩
    · rw [hnone'] at hdir
      cases hdir

theorem MoreDirs.keeps (h : MoreDirs t t') : Keeps t t' := by
  intro p x hp
  rcases h p with heq | ⟨hnone, -⟩
  · rw [heq, hp]
  · rw [hnone] at hp
    cases hp

/-- What is no directory was there before. -/
theorem MoreDirs.lookup_of_ne (h : MoreDirs t t') (hp : t'.lookup p ≠ some .dir) :
    t'.lookup p = t.lookup p := by
  rcases h p with heq | ⟨-, hdir⟩
  · exact heq
  · exact absurd hdir hp

theorem keeps_insert {x : Node Path β} (hdir : t.lookup dir = some .dir)
    (hleaf : t.lookup (dir ++ [n]) ≠ some .dir) (hnone : t.lookup (dir ++ [n]) = none) :
    Keeps t (t.insert dir n x hdir hleaf) := by
  intro p y hp
  rw [FileTree.lookup_insert, if_neg, hp]
  rintro rfl
  rw [hnone] at hp
  cases hp

end Kept

section Directories

theorem mkdir_moreDirs (sys : System β) (p : List FileName) (t : Tree β) :
    Leads MoreDirs (mkdir sys p) t := by
  rw [Leads, mkdir]
  rcases create_cases sys .dir p t with ⟨e, h⟩ | ⟨dir, n, hdir, hleaf, -, hnone, h⟩
  · rw [final_error h]
    exact .refl t
  · rw [final_ok h]
    intro q
    rw [FileTree.lookup_insert]
    split_ifs with hq
    · exact .inr ⟨hq ▸ hnone, rfl⟩
    · exact .inl rfl

theorem mkdirUnlessDir_moreDirs (sys : System β) (existOk : Bool) (p : List FileName) (t : Tree β) :
    Leads MoreDirs (mkdirUnlessDir sys existOk p) t := by
  apply leads_tryCatch MoreDirs.trans (mkdir_moreDirs sys p t)
  intro e t' _
  rw [Leads, final, get_bind]
  split_ifs
  · exact .refl t'
  · exact .refl t'

/-- Wherever the path leads, only directories are made. -/
theorem makedirs_moreDirs (sys : System β) (existOk : Bool) (p : List FileName) (t : Tree β) :
    Leads MoreDirs (makedirs sys existOk p) t := by
  rw [makedirs]
  generalize p.reverse = l
  induction l generalizing t with
  | nil => exact mkdirUnlessDir_moreDirs sys existOk [] t
  | cons n above ih =>
      have hlast := mkdirUnlessDir_moreDirs sys existOk (above.reverse ++ [n])
      rw [makedirsUp]
      apply leads_get
      dsimp only
      split_ifs
      · refine leads_bind MoreDirs.trans (leads_tryCatch MoreDirs.trans (ih t) ?_) fun _ t' _ => hlast t'
        intro e t' _
        split_ifs
        · exact .refl t'
        · exact .refl t'
      · exact hlast t

end Directories

section Raising
variable {α : Type} {left R : Tree β → Tree β → Prop} {call real : FileM β α}

theorem MayRaise.leads (h : MayRaise left call real) (hreal : Leads R real t)
    (hleft : ∀ t', left t t' → R t t') : Leads R call t := by
  rcases h t with heq | ⟨e, t', hcall, ht'⟩
  · rw [Leads, final, heq]
    exact hreal
  · rw [Leads, final_error hcall]
    exact hleft t' ht'

theorem MayRaise.onError (h : MayRaise left call real) (hreal : OnError R real t)
    (hleft : ∀ t', left t t' → R t t') : OnError R call t := by
  intro e t' hcall
  rcases h t with heq | ⟨e', t'', hcall', ht''⟩
  · exact hreal e t' (heq ▸ hcall)
  · rw [hcall'] at hcall
    obtain ⟨-, rfl⟩ := EStateM.Result.error.inj hcall
    exact hleft _ ht''

/-- What a call does, it does. -/
theorem MayRaise.eq_ok {a : α} (h : MayRaise left call real) (hcall : call t = .ok a t') :
    real t = .ok a t' := by
  rcases h t with heq | ⟨e, t'', hcall', -⟩
  · rw [← heq, hcall]
  · rw [hcall'] at hcall
    cases hcall

theorem call_ok {m : FileM β α} {a : α} (h : m t = .ok a t') : Storage.call m t = .ok a t' := by
  rw [Storage.call, h]

theorem call_error {m : FileM β α} {e : Failure} (h : m t = .error e t') :
    Storage.call m t = .error (.os e) t' := by
  rw [Storage.call, h]

theorem of_call_ok {m : FileM β α} {a : α} (h : Storage.call m t = .ok a t') : m t = .ok a t' := by
  cases hm : m t with
  | ok b t'' =>
      rw [call_ok hm] at h
      obtain ⟨rfl, rfl⟩ := EStateM.Result.ok.inj h
      rfl
  | error e t'' =>
      rw [call_error hm] at h
      cases h

theorem leads_call {m : FileM β α} (h : Leads R m t) : Leads R (Storage.call m) t := by
  cases hm : m t with
  | ok a t' =>
      rw [Leads, final_ok hm] at h
      rw [Leads, final_ok (call_ok hm)]
      exact h
  | error e t' =>
      rw [Leads, final_error hm] at h
      rw [Leads, final_error (call_error hm)]
      exact h

theorem onError_call {m : FileM β α} (h : OnError R m t) : OnError R (Storage.call m) t := by
  intro e t' hcall
  cases hm : m t with
  | ok a t'' =>
      rw [call_ok hm] at hcall
      cases hcall
  | error e' t'' =>
      rw [call_error hm] at hcall
      obtain ⟨-, rfl⟩ := EStateM.Result.error.inj hcall
      exact h e' _ hm

end Raising

section Ways

/-- A way with one more name leads through a directory that has the name. -/
theorem walkWith_concat_some {onLink : List FileName → List Part → Option (List FileName)}
    {ps : List Part} {found : List FileName}
    (honLink : ∀ dir ps, onLink dir (ps ++ [.name n]) = some found →
      ∃ d, onLink dir ps = some d ∧ t.lookup d = some .dir ∧ t.lookup (d ++ [n]) ≠ none)
    (h : walkWith t onLink dir (ps ++ [.name n]) = some found) :
    ∃ d, walkWith t onLink dir ps = some d ∧ t.lookup d = some .dir ∧ t.lookup (d ++ [n]) ≠ none := by
  induction ps generalizing dir with
  | nil =>
      rw [List.nil_append, walkWith] at h
      split_ifs at h with hdir
      refine ⟨dir, rfl, not_not.mp hdir, ?_⟩
      intro hnone
      rw [hnone] at h
      cases h
  | cons part ps ih =>
      rw [List.cons_append] at h
      cases part with
      | up =>
          rw [walkWith] at h ⊢
          split_ifs at h ⊢
          exact ih h
      | name m =>
          rw [walkWith] at h ⊢
          split_ifs at h ⊢
          cases hm : t.lookup (dir ++ [m]) with
          | none =>
              rw [hm] at h
              cases h
          | some y =>
              rw [hm] at h
              cases y with
              | dir => exact ih h
              | file content => exact ih h
              | link target =>
                  simp only at h ⊢
                  rw [← List.append_assoc] at h
                  exact honLink _ _ h

theorem walk_concat_some {limit : ℕ} {ps : List Part} {found : List FileName}
    (h : walk t limit dir (ps ++ [.name n]) = some found) :
    ∃ d, walk t limit dir ps = some d ∧ t.lookup d = some .dir ∧ t.lookup (d ++ [n]) ≠ none := by
  induction limit generalizing dir ps with
  | zero => exact walkWith_concat_some (fun _ _ hno => by cases hno) h
  | succ limit ih => exact walkWith_concat_some (fun _ _ hlink => ih hlink) h

/-- Where a directory does not have the name, the way ends. -/
theorem stat_of_absent (hentry : (entry sys t p).isSome = true) (hnone : lstat sys t p = none) :
    stat sys t p = none := by
  obtain ⟨⟨d, m⟩, he⟩ := Option.isSome_iff_exists.mp hentry
  obtain ⟨-, above, rfl, hstat⟩ := entry_eq_some he
  rw [lstat, he, Option.bind_some] at hnone
  rw [Option.eq_none_iff_forall_ne_some]
  intro found hfound
  rw [stat, names, List.map_append] at hfound
  obtain ⟨d', hwalk, -, hsome⟩ := walk_concat_some hfound
  have heq : some d' = some d := hwalk.symm.trans hstat
  rw [Option.some.inj heq] at hsome
  exact hsome hnone

theorem part?_chars (n : FileName) : part? n.chars = some (.name n) :=
  dif_pos ⟨n.nonempty, n.noSlash, n.notDot, n.notDots⟩

theorem parts_pathText (p : List FileName) : parts (pathText p) = names p := by
  have hslash : parts (pathText p) = parts (joinSlash (p.map (·.chars))) := by
    rw [parts, parts, pathText, rooted, List.replicate_one, List.singleton_append, splitSlash,
      if_pos rfl, List.filterMap_cons]
    rfl
  rw [hslash, parts]
  by_cases hnil : p = []
  · rw [hnil]
    rfl
  · rw [splitSlash_joinSlash (fun c hc => (plain_chars p c hc).noSlash) (by simpa using hnil),
      List.filterMap_map, names]
    have hparts : (part? ∘ fun n : FileName => n.chars) = some ∘ Part.name := funext part?_chars
    rw [hparts, List.filterMap_eq_map]

/-- The text of a real path leads where the path leads, if anywhere. -/
theorem existsText_pathText (cwd : List FileName) (h : stat sys t p = none) :
    existsText sys t cwd (pathText p) = false := by
  have hwalk : walk t sys.symlinkLimit (linkStart cwd (pathText p)) (parts (pathText p)) = none := by
    rw [parts_pathText]
    exact h
  rw [existsText, statText, hwalk]
  split_ifs
  · rfl
  · rfl

end Ways

section Safe
variable {env : Surroundings} (os : Os sys env.cwd) {allowedDirs : Option (List Path)}
  {filePath src dst : Path} {checkExists allowSymlinks : Bool}

/-- A check changes nothing. -/
theorem checked_same : final (checked env allowedDirs sys filePath checkExists allowSymlinks) t = t := by
  rw [final, checked]
  cases validateFilePath sys t env filePath allowedDirs checkExists allowSymlinks with
  | ok r => rfl
  | error e => rfl

theorem leads_checked {R : Tree β → Tree β → Prop} (hrefl : R t t) :
    Leads R (checked env allowedDirs sys filePath checkExists allowSymlinks) t := by
  rw [Leads, checked_same]
  exact hrefl

theorem checked_ok {r : List FileName}
    (h : checked env allowedDirs sys filePath checkExists allowSymlinks t = .ok r t') :
    t' = t ∧ validateFilePath sys t env filePath allowedDirs checkExists allowSymlinks = .ok r := by
  rw [checked] at h
  cases hvalid : validateFilePath sys t env filePath allowedDirs checkExists allowSymlinks with
  | ok r' =>
      rw [hvalid] at h
      obtain ⟨rfl, rfl⟩ := EStateM.Result.ok.inj h
      exact ⟨rfl, rfl⟩
  | error e =>
      rw [hvalid] at h
      cases h

theorem checked_of_ok {r : List FileName}
    (h : validateFilePath sys t env filePath allowedDirs checkExists allowSymlinks = .ok r) :
    checked env allowedDirs sys filePath checkExists allowSymlinks t = .ok r t := by
  rw [checked, h]

theorem os_makedirs_moreDirs (p : List FileName) (t : Tree β) : Leads MoreDirs (os.makedirs p) t :=
  (os.makedirs_may p).leads (makedirs_moreDirs sys true p t) fun _ h => h

theorem ensureDir_moreDirs (dir : List FileName) (t : Tree β) :
    Leads MoreDirs (os.ensureDir env dir) t := by
  rw [Os.ensureDir]
  apply leads_get
  split_ifs
  · exact leads_call (os_makedirs_moreDirs os dir t)
  · exact .refl t

theorem safeMakedirs_moreDirs (path : Path) (t : Tree β) :
    Leads MoreDirs (os.safeMakedirs env allowedDirs path) t := by
  rw [Os.safeMakedirs]
  apply leads_get
  generalize (if dirname _ = [] then _ else _) = parentDir
  split_ifs
  · exact leads_bind MoreDirs.trans (leads_checked (.refl t)) fun _ t' _ => .refl t'
  · exact leads_bind MoreDirs.trans (leads_checked (.refl t)) fun _ t' _ =>
      leads_call (os_makedirs_moreDirs os _ t')

/-- Two checks and a directory come before each operation. -/
theorem onError_checks {R : Tree β → Tree β → Prop} {α : Type} (hrefl : ∀ t, R t t)
    (htrans : ∀ a b c, R a b → R b c → R a c) (hdirs : ∀ t t', MoreDirs t t' → R t t')
    {f : List FileName → List FileName → SafeM β α} {t : Tree β}
    (hf : ∀ p q t', OnError R (f p q) t') :
    OnError R (do
      let srcValidated ← checked env allowedDirs sys src true allowSymlinks
      let dstValidated ← checked env allowedDirs sys dst false false
      os.ensureDir env dstValidated.dropLast
      f srcValidated dstValidated) t := by
  refine onError_bind htrans (leads_checked (hrefl t)) fun p t₁ _ => ?_
  refine onError_bind htrans (leads_checked (hrefl t₁)) fun q t₂ _ => ?_
  exact onError_bind htrans (hdirs _ _ (ensureDir_moreDirs os _ t₂)) fun _ t₃ _ => hf p q t₃

theorem osRename_onError (sys : System β) (src dst : List FileName) (t : Tree β) :
    OnError Keeps (osRename sys src dst) t := by
  intro e t' h
  rcases osRename_cases sys src dst t with ⟨e', h'⟩ | ⟨a, b, -, -, -, -, h'⟩ | ⟨a, b, hrep, -, -, -, -, h'⟩
  · rw [h'] at h
    obtain ⟨-, rfl⟩ := EStateM.Result.error.inj h
    exact .refl _
  · rw [h'] at h
    cases h
  · rw [h'] at h
    cases h

theorem create_onError (sys : System β) (x : Node Path β) (p : List FileName) (t : Tree β) :
    OnError Keeps (create sys x p) t := by
  intro e t' h
  rcases create_cases sys x p t with ⟨e', h'⟩ | ⟨dir, n, hdir, hleaf, -, -, h'⟩
  · rw [h'] at h
    obtain ⟨-, rfl⟩ := EStateM.Result.error.inj h
    exact .refl _
  · rw [h'] at h
    cases h

theorem create_keeps (sys : System β) (x : Node Path β) (p : List FileName) (t : Tree β) :
    Leads Keeps (create sys x p) t := by
  rw [Leads]
  rcases create_cases sys x p t with ⟨e, h⟩ | ⟨dir, n, hdir, hleaf, -, hnone, h⟩
  · rw [final_error h]
    exact .refl t
  · rw [final_ok h]
    exact keeps_insert hdir hleaf hnone

theorem safeRename_onError (t : Tree β) :
    OnError Keeps (os.safeRename env allowedDirs src dst) t := by
  apply onError_checks os Keeps.refl Keeps.trans fun _ _ h => h.keeps
  intro p q t'
  apply onError_call
  apply (os.rename_may p q).onError (osRename_onError sys p q t')
  rintro _ rfl
  exact .refl _

theorem safeSymlink_onError (t : Tree β) :
    OnError Keeps (os.safeSymlink env allowedDirs src dst) t := by
  apply onError_checks os Keeps.refl Keeps.trans fun _ _ h => h.keeps
  intro p q t'
  apply onError_call
  apply (os.symlink_may (pathText p) q).onError (create_keeps sys _ q t').onError
  rintro _ rfl
  exact .refl _

/-- Where nothing is, writing adds a file at most. -/
theorem writeText_keeps (content : β) (h : existsText sys t env.cwd dst = false) :
    Leads Keeps (writeText sys env.cwd content dst) t := by
  have hstat : statText sys t env.cwd dst = none := Option.isNone_iff_eq_none.mp (Option.isSome_eq_false_iff.mp h)
  rw [writeText]
  apply leads_get
  rw [hstat]
  dsimp only
  cases entryText sys t env.cwd dst with
  | none => exact .refl t
  | some e => exact create_keeps sys _ _ t

theorem copy2_onError (h : existsText sys t env.cwd dst = false) :
    OnError Keeps (os.copy2 env src dst) t := by
  have hstat : statText sys t env.cwd dst = none := Option.isNone_iff_eq_none.mp (Option.isSome_eq_false_iff.mp h)
  have hdir : isDirText sys t env.cwd dst ≠ true := by
    rw [isDirText, hstat]
    exact Bool.false_ne_true
  rw [Os.copy2]
  apply onError_get
  rw [if_neg hdir]
  dsimp only
  split_ifs
  · exact Leads.onError (Keeps.refl t)
  · split
    · next content _ =>
        apply onError_call
        apply (os.write_may content dst).onError (writeText_keeps content h).onError
        rintro t' (rfl | ⟨part, hpart⟩)
        · exact .refl _
        · have hkept := writeText_keeps part h
          rw [Leads, final_ok hpart] at hkept
          exact hkept
    · exact Leads.onError (Keeps.refl t)

theorem linkFile_false {cross : List FileName → List FileName → Bool} {src dst : List FileName}
    (h : linkFile sys cross src dst t = .ok false t') :
    t' = t ∧ lstat sys t dst = none ∧ (entry sys t dst).isSome = true := by
  unfold linkFile at h
  rw [get_bind] at h
  generalize (stat sys t src).bind t.lookup = node at h
  rcases node with _ | _ | content | _
  · cases h
  · cases h
  · dsimp only at h
    split_ifs at h with hcross
    · obtain ⟨-, rfl⟩ := EStateM.Result.ok.inj h
      exact ⟨rfl, hcross.2⟩
    · obtain ⟨_, t'', -, hlast⟩ := bind_eq_ok.mp h
      cases hlast
  · cases h

theorem linkFile_onError (cross : List FileName → List FileName → Bool) (src dst : List FileName)
    (t : Tree β) : OnError Keeps (linkFile sys cross src dst) t := by
  unfold linkFile
  apply onError_get
  generalize (stat sys t src).bind t.lookup = node
  have hother : OnError Keeps (throw .osError : FileM β Bool) t := Leads.onError (Keeps.refl t)
  rcases node with _ | _ | content | _
  · exact hother
  · exact hother
  · dsimp only
    split_ifs
    · exact Leads.onError (Keeps.refl t)
    · exact onError_bind Keeps.trans (create_keeps sys _ dst t) fun _ t' _ =>
        Leads.onError (Keeps.refl t')
  · exact hother

theorem safeHardlink_onError (t : Tree β) :
    OnError Keeps (os.safeHardlink env allowedDirs src dst) t := by
  apply onError_checks os Keeps.refl Keeps.trans fun _ _ h => h.keeps
  intro p q t' e t₂ h
  cases hlink : os.link p q t' with
  | error e' t₁ =>
      rw [bind_error (call_error hlink)] at h
      obtain ⟨-, rfl⟩ := EStateM.Result.error.inj h
      have hkept : OnError Keeps (os.link p q) t' := by
        apply (os.link_may p q).onError (linkFile_onError os.crossDevice p q t')
        rintro _ rfl
        exact .refl _
      exact hkept e' _ hlink
  | ok linked t₁ =>
      rw [bind_ok (call_ok hlink)] at h
      cases linked with
      | true => cases h
      | false =>
          obtain ⟨rfl, hnone, hentry⟩ := linkFile_false ((os.link_may p q).eq_ok hlink)
          exact copy2_onError os (existsText_pathText env.cwd (stat_of_absent hentry hnone)) e t₂ h

end Safe

end SmartMedia.Storage
