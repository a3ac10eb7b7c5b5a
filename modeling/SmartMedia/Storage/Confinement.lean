import SmartMedia.Storage.Runs

/-!
# Confinement to the base directory

Without links, nothing outside the base directory is changed but by a rename or a deletion of the
base directory itself.
-/
namespace SmartMedia.Storage
open Media StateProgram LocalStorageProvider

variable {β : Type} {sys : System β} {base : List FileName} {t t' : Tree β}
  {src dir q r : List FileName} {n : FileName}

/-- Nothing but what is below the base directory has changed, and that is still there. -/
structure Confined (base : List FileName) (t t' : Tree β) : Prop where
  outside : ChangesBelow base t t'
  base : t'.lookup base = some .dir

theorem Confined.trans {t'' : Tree β} (h : Confined base t t') (h' : Confined base t' t'') :
    Confined base t t'' :=
  ⟨fun r hr => (h'.outside r hr).trans (h.outside r hr), h'.base⟩

theorem Confined.refl (hbase : t.lookup base = some .dir) : Confined base t t :=
  ⟨fun _ _ => rfl, hbase⟩

theorem Grows.confined (h : Grows q t t') (hbase : t.lookup base = some .dir) (hq : base <+: q) :
    Confined base t t' := by
  constructor
  · intro r hr
    rcases h r with heq | ⟨hnone, hrq | hqr⟩
    · exact heq
    · rcases List.prefix_or_prefix_of_prefix hq hrq with h | h
      · exact absurd h hr
      · rw [FileTree.lookup_of_absent hnone h] at hbase
        cases hbase
    · exact absurd (hq.trans hqr) hr
  · rcases h base with heq | ⟨hnone, -⟩
    · exact heq.trans hbase
    · rw [hnone] at hbase
      cases hbase

theorem AddsDirs.confined (h : AddsDirs q t t') (hbase : t.lookup base = some .dir)
    (hq : base <+: q) : Confined base t t' := h.grows.confined hbase hq

/-- What is renamed below the base directory leaves it. -/
theorem confined_rename (hbase : t.lookup base = some .dir) (hsrc : base <+: src)
    (hdir : base <+: dir) (h : CanReplace t src dir n) :
    Confined base t (t.rename src dir n h.dir h.out) := by
  have hq : base <+: dir ++ [n] := hdir.trans (List.prefix_append _ _)
  constructor
  · intro r hr
    rw [FileTree.lookup_rename, if_neg fun hpre => hr (hq.trans hpre),
      if_neg fun hpre => hr (hsrc.trans hpre)]
  · have hout : ¬ dir ++ [n] <+: base := fun hpre =>
      FileTree.concat_not_prefix_self dir n (hpre.trans hdir)
    have hproper : ¬ src <+: base := fun hpre => h.out (hpre.trans hq)
    rw [FileTree.lookup_rename, if_neg hout, if_neg hproper, hbase]

theorem MoveOutcome.confined {m : FileM β Unit} (h : MoveOutcome src q t (m t))
    (hbase : t.lookup base = some .dir) (hsrc : base <+: src) (hq : base <+: q)
    (hdir : ∀ dir n, q = dir ++ [n] → base <+: dir) : Confined base t (final m t) := by
  rw [final]
  generalize m t = result at h
  cases h with
  | unchanged => exact .refl hbase
  | refused e => exact .refl hbase
  | grown e hgrows => exact hgrows.confined hbase hq
  | renamed heq hsome hne h => exact confined_rename hbase hsrc (hdir _ _ heq) h
  | copied heq hdirectory hnone hadds hmade h =>
      have hmid := hadds.confined hbase hq
      exact hmid.trans (confined_rename hmid.base hsrc (hdir _ _ heq) h)

section Linkless

/-- Nothing but what was there somewhere. -/
theorem Linkless.of_lookup (ht : Linkless t)
    (h : ∀ r x, t'.lookup r = some x → ∃ s, t.lookup s = some x) : Linkless t' := by
  intro r target hr
  obtain ⟨s, hs⟩ := h r _ hr
  exact ht s target hs

theorem Linkless.rename (ht : Linkless t) (h : CanReplace t src dir n) :
    Linkless (t.rename src dir n h.dir h.out) := by
  apply ht.of_lookup
  intro r x hr
  rw [FileTree.lookup_rename] at hr
  split_ifs at hr
  · exact ⟨_, hr⟩
  · exact ⟨_, hr⟩

theorem MoveOutcome.linkless {m : FileM β Unit} (h : MoveOutcome src q t (m t)) (ht : Linkless t) :
    Linkless (final m t) := by
  rw [final]
  generalize m t = result at h
  cases h with
  | unchanged => exact ht
  | refused e => exact ht
  | grown e hgrows hlinkless => exact hlinkless ht
  | renamed heq hsome hne h => exact ht.rename h
  | copied heq hdirectory hnone hadds hmade h => exact (hadds.linkless ht).rename h

theorem linkless_bare : Linkless (FileTree.bare : Tree β) := by
  intro r target hr
  have hr' : (if r = [] then some .dir else none) = some (Node.link (β := β) target) := hr
  split_ifs at hr'
  cases hr'

theorem Linkless.insert (ht : Linkless t) {x : Node Path β} (hx : ∀ target, x ≠ .link target)
    (hdir : t.lookup dir = some .dir) (hleaf : t.lookup (dir ++ [n]) ≠ some .dir) :
    Linkless (t.insert dir n x hdir hleaf) := by
  intro r target hr
  rw [FileTree.lookup_insert] at hr
  split_ifs at hr
  · exact hx target (Option.some.inj hr)
  · exact ht r target hr

/-- No call makes the first link. -/
theorem Call.linkless (sys : System β) (base : List FileName) (c : Call) (ht : Linkless t) :
    Linkless (final (c.run sys base) t) := by
  cases c with
  | mkdir parentPath name =>
      obtain ⟨q, -, hadds⟩ := mkdir_adds sys base parentPath name t
      exact hadds.linkless ht
  | rename path newName =>
      rcases rename_cases sys base path newName t with h | ⟨resolved, n, hresolve, hpart, hnul, -, -⟩
      · rw [Call.run, h]
        exact ht
      · rw [Call.run, rename_name hresolve hpart hnul]
        exact (osRename_outcome sys n (ht.plain _) (ht.plain _)).linkless ht
  | move sourcePath targetDir =>
      rcases move_cases sys base sourcePath targetDir t with
        ⟨e, h⟩ | ⟨src, target, hsrc, htarget, hplain, hplain', -, -⟩
      · rw [Call.run, final_error h]
        exact ht
      · rw [Call.run, final, move_run hsrc htarget, ← final,
          final_mapToFileItem (p := fun _ => target ++ src.getLast?.toList)]
        obtain ⟨q, hout, -⟩ := shutilMove_outcome sys hplain hplain'
        exact hout.linkless ht
  | delete path =>
      rcases delete_cases sys base path t with h | ⟨resolved, -, -, ⟨hroot, h⟩ | ⟨-, h⟩⟩
      · rw [Call.run, h]
        exact ht
      · rw [Call.run, h]
        apply ht.of_lookup
        intro r x hr
        rw [FileTree.lookup_remove] at hr
        split_ifs at hr
        exact ⟨_, hr⟩
      · rw [Call.run, h]
        exact linkless_bare

end Linkless

section Escapes

/-- A directory without entries. -/
def EmptyDir (t : Tree β) (p : List FileName) : Prop :=
  t.lookup p = some .dir ∧ ∀ n, t.lookup (p ++ [n]) = none

/-- The base directory itself is renamed, or deleted. -/
def Escapes (base : List FileName) (t : Tree β) : Call → Prop
  | .rename path newName =>
      base ≠ [] ∧ resolvePath base path t = .ok base t ∧
        ∃ n, part? newName = some (.name n) ∧ '\x00' ∉ n.chars ∧ base ≠ base.dropLast ++ [n] ∧
          (t.lookup (base.dropLast ++ [n]) = none ∨ EmptyDir t (base.dropLast ++ [n]))
  | .delete path => base ≠ [] ∧ resolvePath base path t = .ok base t
  | _ => False

theorem EmptyDir.eq_of_mem {p : List FileName} (h : EmptyDir t p) (hr : r ∈ t.keys) (hpr : p <+: r) :
    r = p := by
  obtain ⟨l, rfl⟩ := hpr
  cases l with
  | nil => exact List.append_nil p
  | cons m l =>
      rw [t.mem_keys] at hr
      exact absurd (FileTree.lookup_of_absent (h.2 m) ⟨l, by simp⟩) hr

/-- Whether the base directory can be renamed depends on the new place alone. -/
theorem canReplace_base_iff (hbase : t.lookup base = some .dir) (hroot : base ≠ [])
    (hne : base ≠ base.dropLast ++ [n]) :
    CanReplace t base base.dropLast n ↔
      t.lookup (base.dropLast ++ [n]) = none ∨ EmptyDir t (base.dropLast ++ [n]) := by
  constructor
  · intro h
    rcases h.kind with hnone | ⟨-, hdir, hempty⟩ | ⟨hno, -⟩
    · exact .inl hnone
    · refine .inr ⟨hdir, fun m => ?_⟩
      by_contra hsome
      have heq := hempty _ ((t.mem_keys _).mpr hsome) (List.prefix_append _ _)
      simp at heq
    · exact absurd hbase hno
  · intro h
    obtain ⟨above, k, rfl⟩ := List.eq_nil_or_concat' base |>.resolve_left hroot
    rw [List.dropLast_concat] at hne h ⊢
    have hdir : t.lookup above = some .dir := by
      apply t.closed above k
      rw [hbase]
      simp
    refine ⟨hdir, ?_, ?_⟩
    · intro hpre
      exact hne (hpre.eq_of_length (by simp))
    · rcases h with hnone | hempty
      · exact .inl hnone
      · exact .inr (.inl ⟨hbase, hempty.1, fun r hr => hempty.eq_of_mem hr⟩)

/-- The base directory is gone where it escapes. -/
theorem Escapes.lost (sys : System β) {c : Call} (h : Escapes base t c) (hbase : t.lookup base = some .dir) :
    (final (c.run sys base) t).lookup base = none := by
  cases c with
  | mkdir parentPath name => exact h.elim
  | move sourcePath targetDir => exact h.elim
  | delete path =>
      obtain ⟨hroot, hresolve⟩ := h
      rw [Call.run, delete_dir hresolve hbase hroot, FileTree.lookup_remove, if_pos List.prefix_rfl]
  | rename path newName =>
      obtain ⟨hroot, hresolve, n, hpart, hnul, hne, hplace⟩ := h
      have hreplace := (canReplace_base_iff hbase hroot hne).mpr hplace
      have hsome : t.lookup base ≠ none := by
        rw [hbase]
        simp
      have hout : ¬ base.dropLast ++ [n] <+: base := by
        intro hpre
        apply hne
        refine (hpre.eq_of_length ?_).symm
        rw [List.length_append, List.length_dropLast, List.length_singleton]
        have hpos := List.length_pos_of_ne_nil hroot
        omega
      rw [Call.run, rename_name hresolve hpart hnul, final_ok
        (osRename_replaces sys (plain_of_dir hbase) hsome hroot hne hreplace),
        FileTree.lookup_rename, if_neg hout, if_pos List.prefix_rfl]

/-- Any other call leaves the rest of the tree and the base directory. -/
theorem Call.confined (sys : System β) {c : Call} (ht : Linkless t) (hbase : t.lookup base = some .dir)
    (h : ¬ Escapes base t c) : Confined base t (final (c.run sys base) t) := by
  cases c with
  | mkdir parentPath name =>
      obtain ⟨q, hq, hadds⟩ := mkdir_adds sys base parentPath name t
      exact hadds.confined hbase hq
  | rename path newName =>
      rcases rename_cases sys base path newName t with
        hsame | ⟨resolved, n, hresolve, hpart, hnul, hplain, hwithin⟩
      · rw [Call.run, hsame]
        exact .refl hbase
      · rw [Call.run, rename_name hresolve hpart hnul]
        have hparent : Plain t resolved.dropLast := hplain.mono (List.dropLast_prefix resolved)
        rcases osRename_name sys n hplain hparent with (⟨e, hrun⟩ | hrun) | ⟨hreplace, hsome, hne, hrun⟩
        · rw [final_error hrun]
          exact .refl hbase
        · rw [final_ok hrun]
          exact .refl hbase
        · rw [final_ok hrun]
          have hroot : resolved ≠ [] := by
            rintro rfl
            exact hreplace.out List.nil_prefix
          have hproper : resolved ≠ base := by
            rintro rfl
            exact h ⟨hroot, hresolve, n, hpart, hnul, hne,
              (canReplace_base_iff hbase hroot hne).mp hreplace⟩
          refine confined_rename hbase hwithin ?_ hreplace
          obtain ⟨above, k, rfl⟩ := List.eq_nil_or_concat' resolved |>.resolve_left hroot
          rw [List.dropLast_concat]
          exact (List.prefix_concat_iff.mp hwithin).resolve_left fun heq => hproper heq.symm
  | move sourcePath targetDir =>
      rcases move_cases sys base sourcePath targetDir t with
        ⟨e, herror⟩ | ⟨src, target, hsrc, htarget, hplain, hplain', hsrc', htarget'⟩
      · rw [Call.run, final_error herror]
        exact .refl hbase
      · rw [Call.run, final, move_run hsrc htarget, ← final,
          final_mapToFileItem (p := fun _ => target ++ src.getLast?.toList)]
        obtain ⟨q, hout, hq⟩ := shutilMove_outcome sys hplain hplain'
        rcases List.eq_nil_or_concat' src with rfl | ⟨above, k, rfl⟩
        · rw [List.prefix_nil.mp hsrc'] at hbase ⊢
          exact hout.confined hbase List.nil_prefix List.nil_prefix fun _ _ _ => List.nil_prefix
        · rw [List.getLast?_concat, Option.toList_some] at hq
          rcases hq with rfl | ⟨found, m, hstat, rfl, -⟩
          · refine hout.confined hbase hsrc' (htarget'.trans (List.prefix_append _ _)) ?_
            intro dir m heq
            exact (List.append_inj' heq rfl).1 ▸ htarget'
          · have hfound : base <+: found := by
              rw [stat_plain (ht.plain _)] at hstat
              split_ifs at hstat
              cases hstat
              exact htarget'.trans (List.prefix_append _ _)
            refine hout.confined hbase hsrc' (hfound.trans (List.prefix_append _ _)) ?_
            intro dir m heq
            exact (List.append_inj' heq rfl).1 ▸ hfound
  | delete path =>
      rcases delete_cases sys base path t with hsame | ⟨resolved, hresolve, hwithin, hrun⟩
      · rw [Call.run, hsame]
        exact .refl hbase
      · rcases hrun with ⟨hroot, hrun⟩ | ⟨rfl, hrun⟩
        · have hproper : resolved ≠ base := by
            rintro rfl
            exact h ⟨hroot, hresolve⟩
          rw [Call.run, hrun]
          constructor
          · intro r hr
            rw [FileTree.lookup_remove, if_neg fun hpre => hr (hwithin.trans hpre)]
          · rw [FileTree.lookup_remove, if_neg, hbase]
            intro hpre
            exact hproper (hpre.eq_of_length (le_antisymm hpre.length_le hwithin.length_le))
        · rw [Call.run, hrun, List.prefix_nil.mp hwithin]
          exact ⟨fun r hr => absurd List.nil_prefix hr, FileTree.root _⟩

end Escapes

section Runs
variable {operations : List Operation}

/-- Local storage stays in its base directory exactly as long as it is not itself renamed or
deleted. -/
theorem confined_iff (sys : System β) (operations : List Operation) (hlinkless : Linkless t)
    (hbase : t.lookup base = some .dir) :
    ((∀ step ∈ steps sys base operations t, Confined base t (step.after sys base)) ∧
        Confined base t (runAll sys base operations t)) ↔
      ∀ step ∈ steps sys base operations t, ¬ Escapes base step.2 step.1 := by
  constructor
  · rintro ⟨hafter, -⟩ step hmem hescapes
    have hinvariant : ∀ step ∈ steps sys base operations t, step.2.lookup base = some .dir :=
      (steps_invariant (I := fun s => s.lookup base = some .dir)
        (fun step hmem _ => (hafter step hmem).base) hbase).1
    have hlost := hescapes.lost sys (hinvariant step hmem)
    have hkept := (hafter step hmem).base
    rw [Step.after, hlost] at hkept
    cases hkept
  · intro hno
    have hstep : ∀ step ∈ steps sys base operations t,
        Linkless step.2 ∧ Confined base t step.2 →
          Linkless (step.after sys base) ∧ Confined base t (step.after sys base) := by
      rintro step hmem ⟨hlinks, hconfined⟩
      have hcall := Call.confined sys hlinks hconfined.base (hno step hmem)
      exact ⟨step.1.linkless sys base hlinks, hconfined.trans hcall⟩
    obtain ⟨hbefore, hfinal⟩ := steps_invariant (I := fun s => Linkless s ∧ Confined base t s)
      hstep ⟨hlinkless, .refl hbase⟩
    exact ⟨fun step hmem => (hstep step hmem (hbefore step hmem)).2, hfinal.2⟩

end Runs

section Sample

def sampleBase : FileName := ⟨['b'], by decide, by decide, by decide, by decide⟩
def sampleFile : FileName := ⟨['f'], by decide, by decide, by decide, by decide⟩
def sampleName : FileName := ⟨['g'], by decide, by decide, by decide, by decide⟩

/-- A base directory with one file. -/
def sampleTree : Tree ℕ :=
  (FileTree.bare.insert [] sampleBase .dir bare_root (by decide)).insert [sampleBase] sampleFile (.file 0)
    (by decide) (by decide)

theorem sampleTree_linkless : Linkless sampleTree :=
  (linkless_bare.insert (by simp) _ _).insert (by simp) _ _

/-- A file below the base directory may be renamed. -/
theorem confined_sample : Confined [sampleBase] sampleTree
    (runAll (.sorted 40 1000) [sampleBase] [.call (.rename ['f'] ['g'])] sampleTree) := by
  refine ((confined_iff (.sorted 40 1000) [.call (.rename ['f'] ['g'])] sampleTree_linkless
    rfl).mpr ?_).2
  intro step hstep
  have hsteps : steps (.sorted 40 1000) [sampleBase] [.call (.rename ['f'] ['g'])] sampleTree =
      [(.rename ['f'] ['g'], sampleTree)] := rfl
  rw [hsteps, List.mem_singleton] at hstep
  rw [hstep]
  rintro ⟨-, hresolve, -⟩
  have hfile : resolvePath [sampleBase] ['f'] sampleTree = .ok [sampleBase, sampleFile] sampleTree := rfl
  rw [hfile] at hresolve
  cases hresolve

/-- The base directory does not stay where it is. -/
theorem base_escapes :
    ¬ Confined [sampleBase] sampleTree
      (runAll (.sorted 40 1000) [sampleBase] [.call (.rename ['.'] ['g'])] sampleTree) ∧
    ¬ Confined [sampleBase] sampleTree
      (runAll (.sorted 40 1000) [sampleBase] [.call (.delete ['.'])] sampleTree) := by
  have hrename : Escapes [sampleBase] sampleTree (.rename ['.'] ['g']) :=
    ⟨by simp, rfl, sampleName, by decide, by decide, by decide, .inl (by decide)⟩
  have hdelete : Escapes [sampleBase] sampleTree (.delete ['.']) := ⟨by simp, rfl⟩
  constructor
  · intro h
    have hbase := h.base
    rw [runAll, runAll, Operation.run, hrename.lost _ rfl] at hbase
    cases hbase
  · intro h
    have hbase := h.base
    rw [runAll, runAll, Operation.run, hdelete.lost _ rfl] at hbase
    cases hbase

end Sample

end SmartMedia.Storage
