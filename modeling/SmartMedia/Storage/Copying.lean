import SmartMedia.Storage.Calls

/-!
# Copies of directories

`shutil.copytree` changes nothing outside a destination that was not there, whether it ends
normally or not. What it copies without an error is a copy, and a copy of a directory into one
of its own directories never ends without an error.
-/
namespace SmartMedia.Storage
open Media StateProgram

variable {β : Type} {sys : System β} {t t' : Tree β} {src dst d p q r : List FileName}
  {n k : FileName} {ns : List FileName}

/-- What was below one path is now below another. -/
def Copied (src dst : List FileName) (t t' : Tree β) : Prop :=
  ∀ r, t'.lookup (dst ++ r) = t.lookup (src ++ r)

/-- What a call that copies to a new path may do. -/
structure CopyOutcome (src dst : List FileName) (t : Tree β) (m : FileM β Unit) : Prop where
  below : ChangesBelow dst t (final m t)
  linkless : Linkless t → Linkless (final m t)
  copied : ∀ t', m t = .ok () t' → ¬ src <+: dst → Copied src dst t t'

theorem copyOutcome_error {m : FileM β Unit} {e : Failure} (h : m t = .error e t) :
    CopyOutcome src dst t m := by
  refine ⟨?_, ?_, fun t' ht => ?_⟩
  · rw [final_error h]
    exact fun _ _ => rfl
  · rw [final_error h]
    exact id
  · rw [h] at ht
    cases ht

/-- Something that is not a directory, put at a new path. -/
theorem copyOutcome_create {x : Node Path β} (hdir : t.lookup d = some .dir)
    (hnone : t.lookup (d ++ [n]) = none) (hsrc : t.lookup src = some x) (hx : x ≠ .dir) :
    CopyOutcome src (d ++ [n]) t (create sys x (d ++ [n])) := by
  obtain ⟨t', hrun, hlookup⟩ := create_new sys x hdir hnone
  refine ⟨?_, ?_, fun t'' ht _ => ?_⟩
  · rw [final_ok hrun]
    intro r hr
    rw [hlookup, if_neg]
    rintro rfl
    exact hr List.prefix_rfl
  · rw [final_ok hrun]
    intro hlinkless r target
    rw [hlookup]
    split_ifs
    · rw [← hsrc]
      exact hlinkless src target
    · exact hlinkless r target
  · rw [hrun] at ht
    cases ht
    intro r
    rw [hlookup]
    cases r with
    | nil => rw [if_pos (List.append_nil _), List.append_nil, hsrc]
    | cons m r =>
        have hleft : t.lookup (d ++ [n] ++ m :: r) = none :=
          FileTree.lookup_of_absent hnone (List.prefix_append _ _)
        have hright : t.lookup (src ++ m :: r) = none := by
          apply FileTree.lookup_below _ (List.prefix_append _ _) (by simp)
          rw [hsrc]
          exact fun heq => hx (Option.some.inj heq)
        rw [if_neg (by simp), hleft, hright]

theorem isDir_absent (hdir : t.lookup d = some .dir) (hnone : t.lookup (d ++ [n]) = none) :
    isDir sys t (d ++ [n]) = false := by
  have hplain : Plain t (d ++ [n]) := by
    apply (plain_of_dir hdir).concat
    rw [hnone]
    simp
  rw [Bool.eq_false_iff, ne_eq, isDir_plain hplain, hnone]
  simp

section Entries
variable {recurse : List FileName → List FileName → FileM β Unit}

theorem copyEntry_outcome (sys : System β) (hdir : t.lookup dst = some .dir) (hnone : t.lookup (dst ++ [n]) = none)
    (hrecurse : t.lookup (src ++ [n]) = some .dir →
      CopyOutcome (src ++ [n]) (dst ++ [n]) t (recurse (src ++ [n]) (dst ++ [n]))) :
    CopyOutcome (src ++ [n]) (dst ++ [n]) t (copyEntry sys recurse src dst n) := by
  have hrun : ∀ m : FileM β Unit, copyEntry sys recurse src dst n t = m t →
      CopyOutcome (src ++ [n]) (dst ++ [n]) t m →
        CopyOutcome (src ++ [n]) (dst ++ [n]) t (copyEntry sys recurse src dst n) := by
    intro m hm hout
    have hfinal : final (copyEntry sys recurse src dst n) t = final m t := by
      rw [final, hm, final]
    exact ⟨hfinal ▸ hout.below, hfinal ▸ hout.linkless, hm ▸ hout.copied⟩
  cases hx : t.lookup (src ++ [n]) with
  | none =>
      apply copyOutcome_error (e := .osError)
      unfold copyEntry
      rw [get_bind, hx]
      rfl
  | some x =>
      cases x with
      | dir =>
          apply hrun (recurse (src ++ [n]) (dst ++ [n])) _ (hrecurse hx)
          unfold copyEntry
          rw [get_bind, hx]
      | file content =>
          apply hrun (create sys (.file content) (dst ++ [n])) _
            (copyOutcome_create hdir hnone hx (by simp))
          have hplain : Plain t (dst ++ [n]) := by
            apply (plain_of_dir hdir).concat
            rw [hnone]
            simp
          unfold copyEntry
          rw [get_bind, hx]
          simp only
          unfold copy2
          rw [get_bind, stat_of_lookup hx (by simp), Option.bind_some, hx]
          simp only
          rw [isDir_absent hdir hnone, if_neg Bool.false_ne_true]
          unfold writeFile
          rw [get_bind, stat_plain hplain, if_pos hnone]
      | link target =>
          apply hrun (create sys (.link target) (dst ++ [n])) _
            (copyOutcome_create hdir hnone hx (by simp))
          unfold copyEntry
          rw [get_bind, hx]
          rfl

/-- One turn of the loop over the entries. -/
theorem copyEntries_cons (sys : System β) (recurse : List FileName → List FileName → FileM β Unit)
    (src dst : List FileName) (n : FileName) (ns : List FileName) (t : Tree β) :
    (∃ e, copyEntries sys recurse src dst (n :: ns) t =
        .error e (final (copyEntry sys recurse src dst n) t)) ∨
      ∃ copied, (copied = true → ∃ t', copyEntry sys recurse src dst n t = .ok () t') ∧
        copyEntries sys recurse src dst (n :: ns) t =
          (copyEntries sys recurse src dst ns >>= fun others => pure (copied && others))
            (final (copyEntry sys recurse src dst n) t) := by
  rw [copyEntries]
  cases hn : copyEntry sys recurse src dst n t with
  | ok u t' =>
      rw [final_ok hn]
      refine .inr ⟨true, fun _ => ⟨t', rfl⟩, bind_ok (tryCatch_ok ?_)⟩
      rw [bind_ok hn]
      rfl
  | error e t' =>
      rw [final_error hn]
      have hcopy : (copyEntry sys recurse src dst n >>= fun _ => (pure true : FileM β Bool)) t =
          .error e t' := bind_error hn
      have hcaught : tryCatch (copyEntry sys recurse src dst n >>= fun _ => (pure true : FileM β Bool))
          (fun e => if e = .raised then throw e else pure false) t =
            (if e = .raised then throw e else pure false : FileM β Bool) t' := tryCatch_error hcopy
      by_cases he : e = .raised
      · left
        rw [if_pos he] at hcaught
        exact ⟨e, bind_error hcaught⟩
      · right
        rw [if_neg he] at hcaught
        exact ⟨false, fun hno => absurd hno Bool.false_ne_true, bind_ok hcaught⟩

theorem concat_prefix_iff {m : FileName} : p ++ [n] <+: p ++ m :: r ↔ n = m := by
  rw [List.prefix_append_right_inj, List.cons_prefix_cons]
  exact and_iff_left List.nil_prefix

variable (hrecurse : ∀ n s, s.lookup (src ++ [n]) = some .dir → s.lookup dst = some .dir →
  s.lookup (dst ++ [n]) = none →
    CopyOutcome (src ++ [n]) (dst ++ [n]) s (recurse (src ++ [n]) (dst ++ [n])))
include hrecurse

/-- After an entry the others are still to be copied. -/
theorem copyEntry_next (sys : System β) (hdir : t.lookup dst = some .dir)
    (hnone : ∀ m ∈ n :: ns, t.lookup (dst ++ [m]) = none) (hnodup : (n :: ns).Nodup) :
    (final (copyEntry sys recurse src dst n) t).lookup dst = some .dir ∧
      ∀ m ∈ ns, (final (copyEntry sys recurse src dst n) t).lookup (dst ++ [m]) = none := by
  have hn := hnone n List.mem_cons_self
  have hbelow := (copyEntry_outcome sys hdir hn fun h => hrecurse n t h hdir hn).below
  refine ⟨(hbelow _ (FileTree.concat_not_prefix_self dst n)).trans hdir, fun m hm => ?_⟩
  refine (hbelow _ fun hpre => ?_).trans (hnone m (List.mem_cons_of_mem n hm))
  rw [concat_prefix_iff] at hpre
  exact (List.nodup_cons.mp hnodup).1 (hpre ▸ hm)

theorem copyEntries_frame (sys : System β) (hdir : t.lookup dst = some .dir)
    (hnone : ∀ m ∈ ns, t.lookup (dst ++ [m]) = none) (hnodup : ns.Nodup)
    (hr : ∀ m ∈ ns, ¬ dst ++ [m] <+: r) :
    (final (copyEntries sys recurse src dst ns) t).lookup r = t.lookup r := by
  induction ns generalizing t with
  | nil => rfl
  | cons n ns ih =>
      have hn := hnone n List.mem_cons_self
      have hbelow := (copyEntry_outcome sys hdir hn fun h => hrecurse n t h hdir hn).below
      have hfirst := hbelow r (hr n List.mem_cons_self)
      rcases copyEntries_cons sys recurse src dst n ns t with ⟨e, h⟩ | ⟨copied, -, h⟩
      · rw [final_error h, hfirst]
      · obtain ⟨hdir', hnone'⟩ := copyEntry_next hrecurse sys hdir hnone hnodup
        have hfinal := ih hdir' hnone' (List.nodup_cons.mp hnodup).2
          fun m hm => hr m (List.mem_cons_of_mem n hm)
        rw [← final_bind_left (f := fun others => pure (copied && others)) fun _ _ => rfl, final,
          ← h] at hfinal
        rw [final, hfinal, hfirst]

theorem copyEntries_linkless (sys : System β) (hdir : t.lookup dst = some .dir)
    (hnone : ∀ m ∈ ns, t.lookup (dst ++ [m]) = none) (hnodup : ns.Nodup) (ht : Linkless t) :
    Linkless (final (copyEntries sys recurse src dst ns) t) := by
  induction ns generalizing t with
  | nil => exact ht
  | cons n ns ih =>
      have hn := hnone n List.mem_cons_self
      have hfirst :=
        (copyEntry_outcome sys hdir hn fun h => hrecurse n t h hdir hn).linkless ht
      rcases copyEntries_cons sys recurse src dst n ns t with ⟨e, h⟩ | ⟨copied, -, h⟩
      · rw [final_error h]
        exact hfirst
      · obtain ⟨hdir', hnone'⟩ := copyEntry_next hrecurse sys hdir hnone hnodup
        have hfinal := ih hdir' hnone' (List.nodup_cons.mp hnodup).2 hfirst
        rw [← final_bind_left (f := fun others => pure (copied && others)) fun _ _ => rfl, final,
          ← h] at hfinal
        exact hfinal

/-- Without an error every entry has been copied, the others leaving it alone. -/
theorem copyEntries_each (hdir : t.lookup dst = some .dir)
    (hnone : ∀ m ∈ ns, t.lookup (dst ++ [m]) = none) (hnodup : ns.Nodup)
    (hrun : copyEntries sys recurse src dst ns t = .ok true t') (hk : k ∈ ns) :
    ∃ s s', copyEntry sys recurse src dst k s = .ok () s' ∧
      ∀ r, (∀ m, m ≠ k → ¬ dst ++ [m] <+: r) → s.lookup r = t.lookup r ∧ t'.lookup r = s'.lookup r := by
  induction ns generalizing t with
  | nil => cases hk
  | cons n ns ih =>
      have hn := hnone n List.mem_cons_self
      have hbelow := (copyEntry_outcome sys hdir hn fun h => hrecurse n t h hdir hn).below
      obtain ⟨hdir', hnone'⟩ := copyEntry_next hrecurse sys hdir hnone hnodup
      have hnodup' := (List.nodup_cons.mp hnodup).2
      rcases copyEntries_cons sys recurse src dst n ns t with ⟨e, h⟩ | ⟨copied, hcopied, h⟩
      · rw [h] at hrun
        cases hrun
      · rw [h, bind_eq_ok] at hrun
        obtain ⟨others, t'', hothers, hpure⟩ := hrun
        have hboth : (copied && others) = true := (EStateM.Result.ok.inj hpure).1
        have htree : t'' = t' := (EStateM.Result.ok.inj hpure).2
        rw [Bool.and_eq_true] at hboth
        rw [hboth.2, htree] at hothers
        rcases List.mem_cons.mp hk with rfl | hk'
        · obtain ⟨s', hs'⟩ := hcopied hboth.1
          refine ⟨t, s', hs', fun r hr => ⟨rfl, ?_⟩⟩
          have hrest := copyEntries_frame hrecurse sys hdir' hnone' hnodup'
            fun m hm => hr m fun heq => (List.nodup_cons.mp hnodup).1 (heq ▸ hm)
          rw [final_ok hothers, final_ok hs'] at hrest
          exact hrest
        · obtain ⟨s, s', hs', hframe⟩ := ih hdir' hnone' hnodup' hothers hk'
          refine ⟨s, s', hs', fun r hr => ⟨?_, (hframe r hr).2⟩⟩
          rw [(hframe r hr).1]
          apply hbelow r (hr n _)
          rintro rfl
          exact (List.nodup_cons.mp hnodup).1 hk'

end Entries

section CopyTree
variable {limit : ℕ}

/-- The rest of `copytree`, after its directory has been made. -/
def copyInto (sys : System β) (limit : ℕ) (src dst : List FileName) (ns : List FileName) :
    FileM β Unit := do
  let copied ← copyEntries sys (copytree sys limit) src dst ns
  if copied = true then pure () else throw .osError

theorem copytree_run (hsrc : t.lookup src = some .dir) :
    copytree sys (limit + 1) src dst t =
      (makedirs sys false dst >>= fun _ => do
        let t' ← get
        copyInto sys limit src ((stat sys t' dst).getD dst) (sys.scandir t src)) t := by
  rw [copytree, get_bind, stat_of_lookup hsrc (by simp)]
  simp only
  rw [if_neg (not_not_intro hsrc)]
  rfl

theorem copytree_error {e : Failure} (hsrc : t.lookup src = some .dir)
    (hmake : makedirs sys false dst t = .error e t') :
    copytree sys (limit + 1) src dst t = .error e t' := by
  rw [copytree_run hsrc]
  exact bind_error hmake

theorem copytree_ok (hsrc : t.lookup src = some .dir) (hmake : makedirs sys false dst t = .ok () t')
    (hstat : stat sys t' dst = some q) :
    copytree sys (limit + 1) src dst t = copyInto sys limit src q (sys.scandir t src) t' := by
  rw [copytree_run hsrc, bind_ok hmake, get_bind, hstat, Option.getD_some]

theorem copyInto_ok {t'' : Tree β} (h : copyInto sys limit src dst ns t' = .ok () t'') :
    copyEntries sys (copytree sys limit) src dst ns t' = .ok true t'' := by
  rw [copyInto, bind_eq_ok] at h
  obtain ⟨copied, s, hentries, hpure⟩ := h
  split_ifs at hpure with hcopied
  · cases hpure
    rw [hentries, hcopied]
  · cases hpure

theorem final_copyInto :
    final (copyInto sys limit src dst ns) t =
      final (copyEntries sys (copytree sys limit) src dst ns) t := by
  rw [copyInto]
  cases h : copyEntries sys (copytree sys limit) src dst ns t with
  | ok copied t' =>
      rw [final_ok h, final, bind_ok h]
      cases copied with
      | true => rfl
      | false => rfl
  | error e t' => rw [final_error h, final_error (bind_error h)]

/-- Nothing is below a directory that has just been made. -/
theorem AddsDirs.lookup_below (h : AddsDirs dst t t') (hnone : t.lookup dst = none) :
    t'.lookup (dst ++ [n]) = none := by
  rcases h (dst ++ [n]) with heq | ⟨-, -, hpre⟩
  · rw [heq]
    exact FileTree.lookup_of_absent hnone (List.prefix_append _ _)
  · exact absurd hpre (FileTree.concat_not_prefix_self dst n)

variable (hrecurse : ∀ n s, s.lookup (src ++ [n]) = some .dir → s.lookup dst = some .dir →
  s.lookup (dst ++ [n]) = none →
    CopyOutcome (src ++ [n]) (dst ++ [n]) s (copytree sys limit (src ++ [n]) (dst ++ [n])))
include hrecurse

theorem copyInto_below (hadds : AddsDirs dst t t') (hnone : t.lookup dst = none)
    (hdir : t'.lookup dst = some .dir) (hnodup : ns.Nodup) :
    ChangesBelow dst t' (final (copyInto sys limit src dst ns) t') := by
  intro r hr
  rw [final_copyInto]
  exact copyEntries_frame hrecurse sys hdir (fun m _ => hadds.lookup_below hnone) hnodup
    fun m _ hm => hr ((List.prefix_append _ _).trans hm)

theorem copyInto_linkless (hadds : AddsDirs dst t t') (hnone : t.lookup dst = none)
    (hdir : t'.lookup dst = some .dir) (hnodup : ns.Nodup) (ht : Linkless t) :
    Linkless (final (copyInto sys limit src dst ns) t') := by
  rw [final_copyInto]
  exact copyEntries_linkless hrecurse sys hdir (fun m _ => hadds.lookup_below hnone) hnodup
    (hadds.linkless ht)

theorem copyInto_copied {t'' : Tree β} (hsrc : t.lookup src = some .dir)
    (hadds : AddsDirs dst t t') (hnone : t.lookup dst = none) (hdir : t'.lookup dst = some .dir)
    (hrun : copyInto sys limit src dst (sys.scandir t src) t' = .ok () t'')
    (hout : ¬ src <+: dst) : Copied src dst t t'' := by
  have hnodup := sys.nodup_scandir t src
  have hnew : ∀ m, t'.lookup (dst ++ [m]) = none := fun m => hadds.lookup_below hnone
  have hentries := copyInto_ok hrun
  have hframe : ∀ r, (∀ m ∈ sys.scandir t src, ¬ dst ++ [m] <+: r) →
      t''.lookup r = t'.lookup r := by
    intro r hr
    rw [← final_ok hentries]
    exact copyEntries_frame hrecurse sys hdir (fun m _ => hnew m) hnodup hr
  intro r
  cases r with
  | nil =>
      rw [List.append_nil, List.append_nil, hsrc, ← hdir]
      exact hframe dst fun m _ => FileTree.concat_not_prefix_self dst m
  | cons k r =>
      by_cases hk : k ∈ sys.scandir t src
      · obtain ⟨s, s', hcopy, hleft⟩ :=
          copyEntries_each hrecurse hdir (fun m _ => hnew m) hnodup hentries hk
        have hdst : s.lookup dst = some .dir :=
          ((hleft dst fun m _ => FileTree.concat_not_prefix_self dst m).1).trans hdir
        have hentry : s.lookup (dst ++ [k]) = none :=
          ((hleft _ fun m hm hpre => hm (concat_prefix_iff.mp hpre)).1).trans (hnew k)
        have hcopied := (copyEntry_outcome sys hdst hentry fun h => hrecurse k s h hdst hentry).copied
          s' hcopy fun hpre => hout (List.prefix_of_prefix_length_le
            ((List.prefix_append src [k]).trans hpre) (List.prefix_append dst [k])
              (by simpa using hpre.length_le))
        have hsource : ¬ dst <+: src ++ k :: r := by
          intro hpre
          rcases List.prefix_or_prefix_of_prefix hpre (List.prefix_append src (k :: r)) with h | h
          · rw [FileTree.lookup_of_absent hnone h] at hsrc
            cases hsrc
          · exact hout h
        have hold : t'.lookup (src ++ k :: r) = t.lookup (src ++ k :: r) := by
          rcases hadds (src ++ k :: r) with heq | ⟨-, -, hpre⟩
          · exact heq
          · exact absurd ((List.prefix_append _ _).trans hpre) hout
        have hcopied' := hcopied r
        rw [List.append_assoc, List.append_assoc, List.singleton_append] at hcopied'
        rw [(hleft _ fun m hm hpre => hm (concat_prefix_iff.mp hpre)).2, hcopied', ← hold]
        exact (hleft _ fun m _ hpre => hsource ((List.prefix_append _ _).trans hpre)).1
      · have hright : t.lookup (src ++ k :: r) = none := by
          rw [sys.mem_scandir, not_not] at hk
          exact FileTree.lookup_of_absent hk ⟨r, by simp⟩
        have hleft : t'.lookup (dst ++ k :: r) = none :=
          FileTree.lookup_of_absent (hnew k) ⟨r, by simp⟩
        rw [hright, ← hleft]
        apply hframe
        intro m hm hpre
        rw [concat_prefix_iff] at hpre
        exact hk (hpre ▸ hm)

omit hrecurse in
/-- Directories on the way to a new name in a directory are there already. -/
theorem AddsDirs.changesBelow (h : AddsDirs (d ++ [n]) t t') (hdir : t.lookup d = some .dir) :
    ChangesBelow (d ++ [n]) t t' := by
  intro r hr
  rcases h r with heq | ⟨hnone, -, hpre⟩
  · exact heq
  · rcases List.prefix_concat_iff.mp hpre with rfl | hpre
    · exact absurd List.prefix_rfl hr
    · obtain ⟨l, rfl⟩ := hpre
      rw [FileTree.lookup_of_absent hnone (List.prefix_append _ _)] at hdir
      cases hdir

omit hrecurse in
theorem copytree_outcome (sys : System β) (limit : ℕ) (hsrc : t.lookup src = some .dir)
    (hdir : t.lookup d = some .dir) (hnone : t.lookup (d ++ [n]) = none) :
    CopyOutcome src (d ++ [n]) t (copytree sys limit src (d ++ [n])) := by
  induction limit generalizing t src d n with
  | zero => exact copyOutcome_error rfl
  | succ limit ih =>
      have hentry : entry sys t (d ++ [n]) = some (d, n) := by
        rw [entry_plain (plain_of_dir hdir), if_pos hdir]
      obtain ⟨t', hmake, hadds, hmade⟩ := makedirs_new hentry hnone
      have hcopy : copytree sys (limit + 1) src (d ++ [n]) t = _ :=
        copytree_ok hsrc hmake (stat_of_lookup hmade (by simp))
      have hrecurse : ∀ m s, s.lookup (src ++ [m]) = some .dir → s.lookup (d ++ [n]) = some .dir →
          s.lookup (d ++ [n] ++ [m]) = none → CopyOutcome (src ++ [m]) (d ++ [n] ++ [m]) s
            (copytree sys limit (src ++ [m]) (d ++ [n] ++ [m])) := fun m s h h' h'' => ih h h' h''
      refine ⟨?_, ?_, fun t'' hrun hout => ?_⟩
      · rw [final, hcopy]
        intro r hr
        have hbelow := copyInto_below hrecurse hadds hnone hmade (sys.nodup_scandir t src) r hr
        exact hbelow.trans (hadds.changesBelow hdir r hr)
      · rw [final, hcopy]
        exact copyInto_linkless hrecurse hadds hnone hmade (sys.nodup_scandir t src)
      · rw [hcopy] at hrun
        exact copyInto_copied hrecurse hsrc hadds hnone hmade hrun hout

omit hrecurse in
/-- A copy of a directory below itself does not end without an error, if that of each of its
directories does not. -/
theorem copyInto_self {l : List FileName} (hl : l ≠ []) (hdst : dst = src ++ l ++ [n])
    (hself : ∀ {s : Tree β} {src l : List FileName} {n : FileName}, l ≠ [] →
      s.lookup (src ++ l) = some .dir → s.lookup (src ++ l ++ [n]) = none →
        ∀ s', copytree sys limit src (src ++ l ++ [n]) s ≠ .ok () s')
    (hdir : t.lookup (src ++ l) = some .dir) (hnone : t.lookup dst = none)
    (hadds : AddsDirs dst t t') (hmade : t'.lookup dst = some .dir) (t'' : Tree β) :
    copyInto sys limit src dst (sys.scandir t src) t' ≠ .ok () t'' := by
  intro hrun
  obtain ⟨k, l, rfl⟩ := List.exists_cons_of_ne_nil hl
  have hentry : t.lookup (src ++ [k]) = some .dir := by
    cases l with
    | nil => exact hdir
    | cons m l =>
        refine FileTree.lookup_above (n := m) (q := l) ?_
        rw [List.append_assoc, List.singleton_append, hdir]
        exact Option.some_ne_none _
  have hk : k ∈ sys.scandir t src := by
    rw [sys.mem_scandir, hentry]
    exact Option.some_ne_none _
  obtain ⟨s, s', hcopy, hleft⟩ := copyEntries_each
    (fun m s h h' h'' => copytree_outcome sys limit h h' h'') hmade
      (fun m _ => hadds.lookup_below hnone) (sys.nodup_scandir t src) (copyInto_ok hrun) hk
  have hsk : s.lookup (src ++ [k]) = some .dir := by
    rw [(hleft _ fun m _ hpre => ?_).1, hadds.lookup hentry]
    have hlength := hpre.length_le
    rw [hdst] at hlength
    simp only [List.length_append, List.length_cons, List.length_nil] at hlength
    omega
  have hsdst : s.lookup dst = some .dir :=
    ((hleft dst fun m _ => FileTree.concat_not_prefix_self dst m).1).trans hmade
  have hsnone : s.lookup (dst ++ [k]) = none :=
    ((hleft _ fun m hm hpre => hm (concat_prefix_iff.mp hpre)).1).trans (hadds.lookup_below hnone)
  have hrecursive : copyEntry sys (copytree sys limit) src dst k s =
      copytree sys limit (src ++ [k]) (dst ++ [k]) s := by
    unfold copyEntry
    rw [get_bind, hsk]
  have hdst' : dst = (src ++ [k]) ++ (l ++ [n]) := by simp [hdst]
  rw [hrecursive, hdst'] at hcopy
  rw [hdst'] at hsdst hsnone
  exact hself (List.concat_ne_nil n l) hsdst hsnone s' hcopy

omit hrecurse in
theorem copytree_self (limit : ℕ) {l : List FileName} (hl : l ≠ [])
    (hdir : t.lookup (src ++ l) = some .dir) (hnone : t.lookup (src ++ l ++ [n]) = none)
    (t' : Tree β) : copytree sys limit src (src ++ l ++ [n]) t ≠ .ok () t' := by
  induction limit generalizing t src l n t' with
  | zero =>
      intro hrun
      cases hrun
  | succ limit ih =>
      have hsrc : t.lookup src = some .dir := by
        obtain ⟨k, l, rfl⟩ := List.exists_cons_of_ne_nil hl
        apply FileTree.lookup_above (n := k) (q := l)
        rw [hdir]
        exact Option.some_ne_none _
      have hentry : entry sys t (src ++ l ++ [n]) = some (src ++ l, n) := by
        rw [entry_plain (plain_of_dir hdir), if_pos hdir]
      obtain ⟨s, hmake, hadds, hmade⟩ := makedirs_new hentry hnone
      rw [copytree_ok hsrc hmake (stat_of_lookup hmade (by simp))]
      exact copyInto_self hl rfl (fun h h' h'' s' => ih h h' h'' s') hdir hnone hadds hmade t'

end CopyTree

end SmartMedia.Storage
