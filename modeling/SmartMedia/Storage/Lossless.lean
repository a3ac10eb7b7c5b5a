import SmartMedia.Storage.Runs

/-!
# Contents under file operations

The requests of the file manager that delete nothing lose no content, but where a file is renamed
or moved onto another file.
-/
namespace SmartMedia.Storage
open Media StateProgram LocalStorageProvider

variable {β : Type} {sys : System β} {base : List FileName} {t t' : Tree β}
  {src dst dir target q r : List FileName} {n : FileName}

section Replacement

/-- A file would take the place of another one. -/
def Replaces (t : Tree β) (src dst : List FileName) : Prop :=
  src ≠ dst ∧ ∃ content lost, t.lookup src = some (.file content) ∧ t.lookup dst = some (.file lost)

/-- Nothing is below the place that is taken. -/
theorem CanReplace.alone (h : CanReplace t src dir n) (hr : r ∈ t.keys) (hpre : dir ++ [n] <+: r) :
    r = dir ++ [n] := by
  rw [t.mem_keys] at hr
  by_contra hne
  rcases h.kind with hnone | ⟨-, -, hempty⟩ | ⟨-, hleaf⟩
  · exact hr (FileTree.lookup_of_absent hnone hpre)
  · exact hne (hempty r ((t.mem_keys r).mpr hr) hpre)
  · exact hr (FileTree.lookup_below hleaf hpre hne)

/-- What is renamed stays, and what it takes the place of is lost. -/
theorem contents_canReplace (h : CanReplace t src dir n) (hsome : t.lookup src ≠ none)
    (hne : src ≠ dir ++ [n]) :
    (t.rename src dir n h.dir h.out).contents + FileTree.held (t.lookup (dir ++ [n])) =
      t.contents := by
  have hin : ¬ dir ++ [n] <+: src := fun hpre => hne (h.alone ((t.mem_keys src).mpr hsome) hpre)
  rw [← FileTree.contentsBelow_eq_held fun r => h.alone]
  exact FileTree.contents_rename h.dir h.out hin

theorem contents_rename_le (h : CanReplace t src dir n) (hsome : t.lookup src ≠ none)
    (hne : src ≠ dir ++ [n]) : (t.rename src dir n h.dir h.out).contents ≤ t.contents := by
  rw [← contents_canReplace h hsome hne]
  exact Multiset.le_add_right _ _

theorem contents_le_rename (h : CanReplace t src dir n) (hsrc : Plain t src)
    (hsome : t.lookup src ≠ none) (hne : src ≠ dir ++ [n]) (hno : ¬ Replaces t src (dir ++ [n])) :
    t.contents ≤ (t.rename src dir n h.dir h.out).contents := by
  have hheld : FileTree.held (t.lookup (dir ++ [n])) = 0 := by
    cases hq : t.lookup (dir ++ [n]) with
    | none => rfl
    | some x =>
        cases x with
        | dir => rfl
        | link target => rfl
        | file lost =>
            have hfile : t.lookup src ≠ some .dir := by
              rcases h.kind with hnone | ⟨-, hdir, -⟩ | ⟨hno, -⟩
              · rw [hq] at hnone
                cases hnone
              · rw [hq] at hdir
                cases hdir
              · exact hno
            cases hx : t.lookup src with
            | none => exact absurd hx hsome
            | some y =>
                cases y with
                | dir => exact absurd hx hfile
                | link target => exact absurd hx (hsrc src List.prefix_rfl target)
                | file content => exact absurd ⟨hne, content, lost, hx, hq⟩ hno
  rw [← contents_canReplace h hsome hne, hheld, add_zero]

/-- A file that is replaced is lost. -/
theorem Replaces.contents_lt (hreplaces : Replaces t src (dir ++ [n])) :
    ∃ h : CanReplace t src dir n, Plain t src ∧ t.lookup src ≠ none ∧ src ≠ [] ∧
      (t.rename src dir n h.dir h.out).contents < t.contents := by
  obtain ⟨hne, content, lost, hsrc, hdst⟩ := hreplaces
  have hsome : t.lookup src ≠ none := by
    rw [hsrc]
    simp
  have hroot : src ≠ [] := by
    rintro rfl
    rw [t.root] at hsrc
    cases hsrc
  have hdir : t.lookup dir = some .dir := by
    apply t.closed dir n
    rw [hdst]
    simp
  have h : CanReplace t src dir n :=
    file_canReplace (b := (dir, n)) hsrc hdir (by rw [entryPath, hdst]; simp) hne
  refine ⟨h, plain_of_lookup hsome (by rw [hsrc]; simp), hsome, hroot, ?_⟩
  rw [← contents_canReplace h hsome hne, hdst]
  exact lt_add_of_pos_right _ (pos_iff_ne_zero.mpr (Multiset.singleton_ne_zero lost))

end Replacement

section Moves

theorem MoveOutcome.contents_le {m : FileM β Unit} (h : MoveOutcome src q t (m t))
    (hsrc : Plain t src) (hno : ¬ Replaces t src q) : t.contents ≤ (final m t).contents := by
  rw [final]
  generalize m t = result at h
  cases h with
  | unchanged => exact le_rfl
  | refused e => exact le_rfl
  | grown e hgrows => exact hgrows.contents_le
  | renamed heq hsome hne h =>
      subst heq
      exact contents_le_rename h hsrc hsome hne hno
  | copied heq hdirectory hnone hadds hmade h =>
      subst heq
      rw [← hadds.contents_eq]
      have hdirectory' := hadds.lookup hdirectory
      have hmoved : src ≠ _ ++ [_] := fun heq => by
        rw [heq, hnone] at hdirectory
        cases hdirectory
      refine contents_le_rename h (hadds.plain hsrc) (by rw [hdirectory']; simp) hmoved ?_
      rintro ⟨-, content, lost, hfile, -⟩
      rw [hdirectory'] at hfile
      cases hfile

/-- Only a copy that fails leaves more. -/
theorem MoveOutcome.contents_ge (h : MoveOutcome src q t (.ok () t')) :
    t'.contents ≤ t.contents := by
  generalize hresult : EStateM.Result.ok () t' = result at h
  cases h with
  | unchanged =>
      cases hresult
      exact le_rfl
  | refused e => cases hresult
  | grown e hgrows => cases hresult
  | renamed heq hsome hne h =>
      cases hresult
      subst heq
      exact contents_rename_le h hsome hne
  | copied heq hdirectory hnone hadds hmade h =>
      cases hresult
      subst heq
      rw [← hadds.contents_eq]
      apply contents_rename_le h
      · rw [hadds.lookup hdirectory]
        simp
      · rintro rfl
        rw [hnone] at hdirectory
        cases hdirectory

/-- A file is moved onto a file by a rename. -/
theorem shutilMove_replaces (sys : System β) (h : Replaces t src (dir ++ [n])) :
    (final (shutilMove sys src (dir ++ [n])) t).contents < t.contents := by
  obtain ⟨hreplace, hplain, hsome, hroot, hlt⟩ := h.contents_lt
  obtain ⟨hne, content, lost, hsrc, hdst⟩ := h
  have hisDir : ¬ isDir sys t (dir ++ [n]) = true := by
    rw [isDir_plain (plain_of_lookup (by rw [hdst]; simp) (by rw [hdst]; simp)), hdst]
    simp
  unfold shutilMove
  rw [final, get_bind, if_neg hisDir,
    moveTo_ok (osRename_replaces sys hplain hsome hroot hne hreplace)]
  exact hlt

end Moves

section Calls

/-- A file is renamed or moved onto another one. -/
def Overwrites (base : List FileName) (t : Tree β) : Call → Prop
  | .rename path newName =>
      ∃ resolved n, resolvePath base path t = .ok resolved t ∧ part? newName = some (.name n) ∧
        '\x00' ∉ n.chars ∧ Replaces t resolved (resolved.dropLast ++ [n])
  | .move sourcePath targetDir =>
      ∃ src target, resolvePath base sourcePath t = .ok src t ∧
        resolvePath base targetDir t = .ok target t ∧
          Replaces t src (target ++ src.getLast?.toList)
  | _ => False

theorem Overwrites.contents_lt (sys : System β) {c : Call} (h : Overwrites base t c) :
    (final (c.run sys base) t).contents < t.contents := by
  cases c with
  | mkdir parentPath name => exact h.elim
  | delete path => exact h.elim
  | rename path newName =>
      obtain ⟨resolved, n, hresolve, hpart, hnul, hreplaces⟩ := h
      obtain ⟨hreplace, hplain, hsome, hroot, hlt⟩ := hreplaces.contents_lt
      rw [Call.run, rename_name hresolve hpart hnul,
        final_ok (osRename_replaces sys hplain hsome hroot hreplaces.1 hreplace)]
      exact hlt
  | move sourcePath targetDir =>
      obtain ⟨src, target, hsrc, htarget, hreplaces⟩ := h
      rcases List.eq_nil_or_concat' src with rfl | ⟨above, n, rfl⟩
      · obtain ⟨-, content, lost, hfile, -⟩ := hreplaces
        rw [t.root] at hfile
        cases hfile
      · rw [List.getLast?_concat, Option.toList_some] at hreplaces
        rw [Call.run, final, move_run hsrc htarget, ← final,
          final_mapToFileItem (p := fun _ => target ++ (above ++ [n]).getLast?.toList),
          List.getLast?_concat, Option.toList_some]
        exact shutilMove_replaces sys hreplaces

/-- The other calls lose nothing. -/
theorem Call.contents_le (sys : System β) {c : Call} (hdelete : ∀ path, c ≠ .delete path)
    (h : ¬ Overwrites base t c) : t.contents ≤ (final (c.run sys base) t).contents := by
  cases c with
  | delete path => exact absurd rfl (hdelete path)
  | mkdir parentPath name =>
      obtain ⟨q, -, hadds⟩ := mkdir_adds sys base parentPath name t
      exact hadds.contents_eq.ge
  | rename path newName =>
      rcases rename_cases sys base path newName t with
        hsame | ⟨resolved, n, hresolve, hpart, hnul, hplain, -⟩
      · rw [Call.run, hsame]
      · rw [Call.run, rename_name hresolve hpart hnul]
        apply (osRename_outcome sys n hplain (hplain.mono (List.dropLast_prefix _))).contents_le hplain
        exact fun hreplaces => h ⟨resolved, n, hresolve, hpart, hnul, hreplaces⟩
  | move sourcePath targetDir =>
      rcases move_cases sys base sourcePath targetDir t with
        ⟨e, herror⟩ | ⟨src, target, hsrc, htarget, hplain, hplain', -, -⟩
      · rw [Call.run, final_error herror]
      · rw [Call.run, final, move_run hsrc htarget, ← final,
          final_mapToFileItem (p := fun _ => target ++ src.getLast?.toList)]
        obtain ⟨q, hout, hq⟩ := shutilMove_outcome sys hplain hplain'
        apply hout.contents_le hplain
        intro hreplaces
        rcases hq with rfl | ⟨found, m, -, rfl, hnofile⟩
        · exact h ⟨src, target, hsrc, htarget, hreplaces⟩
        · obtain ⟨-, content, lost, -, hlost⟩ := hreplaces
          exact hnofile lost hlost

/-- A rename leaves no more than there was, however it ends. -/
theorem rename_contents_ge (sys : System β) (base : List FileName) (path newName : Path)
    (t : Tree β) :
    (final (LocalStorageProvider.rename sys base path newName) t).contents ≤ t.contents := by
  rcases rename_cases sys base path newName t with
    hsame | ⟨resolved, n, hresolve, hpart, hnul, hplain, -⟩
  · rw [hsame]
  · rw [rename_name hresolve hpart hnul]
    have hparent : Plain t resolved.dropLast := hplain.mono (List.dropLast_prefix _)
    rcases osRename_name sys n hplain hparent with (⟨e, hrun⟩ | hrun) | ⟨hreplace, hsome, hne, hrun⟩
    · rw [final_error hrun]
    · rw [final_ok hrun]
    · rw [final_ok hrun]
      exact contents_rename_le hreplace hsome hne

/-- So does a move that ends normally. -/
theorem move_contents_ge {sourcePath targetDir : Path}
    (hrun : LocalStorageProvider.move sys base sourcePath targetDir t = .ok () t') :
    t'.contents ≤ t.contents := by
  rcases move_cases sys base sourcePath targetDir t with
    ⟨e, herror⟩ | ⟨src, target, hsrc, htarget, hplain, hplain', -, -⟩
  · rw [herror] at hrun
    cases hrun
  · obtain ⟨q, hout, -⟩ := shutilMove_outcome sys hplain hplain'
    have hfinal : final (shutilMove sys src (target ++ src.getLast?.toList)) t = t' := by
      rw [← final_mapToFileItem (p := fun _ => target ++ src.getLast?.toList), final,
        ← move_run hsrc htarget, hrun]
    rw [move_run hsrc htarget, bind_eq_ok] at hrun
    obtain ⟨u, s, hmove, -⟩ := hrun
    rw [final_ok hmove] at hfinal
    rw [hmove, hfinal] at hout
    exact hout.contents_ge

end Calls

section Requests

/-- The operations of which a request consists. -/
def FileOperationRequest.operations (request : FileOperationRequest) : List Operation :=
  match request.action, request.target.filter (· ≠ []) with
  | .move, some target => [.moveBatch request.paths target]
  | .delete, _ => [.deleteBatch request.paths]
  | .rename, some target => request.paths.map fun path => .call (.rename path target)
  | .mkdir, some target => [.call (.mkdir (request.paths.headD ['0']) target)]
  | _, none => []

theorem renameAll_final (sys : System β) (base : List FileName) (newName : Path)
    (paths : List Path) (t : Tree β) :
    final (renameAll sys base newName paths) t =
      runAll sys base (paths.map fun path => .call (.rename path newName)) t := by
  induction paths generalizing t with
  | nil => rfl
  | cons path rest ih =>
      rw [renameAll, List.map_cons, runAll, ← ih, Operation.run, Call.run]
      have hcaught : ∃ success, tryCatch (LocalStorageProvider.rename sys base path newName >>=
          fun _ => pure true) (fun _ => (pure false : FileM β Bool)) t =
            .ok success (final (LocalStorageProvider.rename sys base path newName) t) := by
        cases hpath : LocalStorageProvider.rename sys base path newName t with
        | ok u t' => exact ⟨true, final_ok hpath ▸ tryCatch_ok (bind_ok hpath)⟩
        | error e t' => exact ⟨false, final_error hpath ▸ tryCatch_error (bind_error hpath)⟩
      obtain ⟨success, hcaught⟩ := hcaught
      rw [final, bind_ok hcaught, ← final]
      exact final_bind_left fun _ _ => rfl

/-- A request is its operations one after the other. -/
theorem handleOperation_final (sys : System β) (base : List FileName)
    (request : FileOperationRequest) (t : Tree β) :
    final (handleOperation sys base request) t = runAll sys base request.operations t := by
  rw [handleOperation, FileOperationRequest.operations]
  cases htarget : request.target.filter (· ≠ []) with
  | none =>
      cases haction : request.action with
      | rename => rfl
      | move => rfl
      | mkdir => rfl
      | delete => exact final_bind_left fun _ _ => rfl
  | some target =>
      cases haction : request.action with
      | rename =>
          rw [← renameAll_final]
          exact final_bind_left fun _ _ => rfl
      | move => exact final_bind_left fun _ _ => rfl
      | delete => exact final_bind_left fun _ _ => rfl
      | mkdir =>
          simp only [runAll, Operation.run, Call.run]
          cases hmkdir : LocalStorageProvider.mkdir sys base (request.paths.headD ['0']) target t with
          | ok u t' =>
              have hcreated : (LocalStorageProvider.mkdir sys base (request.paths.headD ['0']) target >>=
                  fun _ => (pure .created : FileM β Reply)) t = .ok .created t' := bind_ok hmkdir
              rw [final_ok hmkdir, final_ok (tryCatch_ok hcreated)]
          | error e t' =>
              have hfailed : (LocalStorageProvider.mkdir sys base (request.paths.headD ['0']) target >>=
                  fun _ => (pure .created : FileM β Reply)) t = .error e t' := bind_error hmkdir
              rw [final_error hmkdir, final, tryCatch_error hfailed]
              rfl

/-- The calls of which requests for a rename, a move or a new directory consist. -/
theorem operations_cases (request : FileOperationRequest) (hdelete : request.action ≠ .delete) :
    (∃ target, request.operations = [.moveBatch request.paths target]) ∨
      ∀ operation ∈ request.operations, (∃ path newName, operation = .call (.rename path newName)) ∨
        ∃ parentPath name, operation = .call (.mkdir parentPath name) := by
  rw [FileOperationRequest.operations]
  cases htarget : request.target.filter (· ≠ []) with
  | none =>
      right
      cases haction : request.action with
      | rename => exact fun _ hno => (List.not_mem_nil hno).elim
      | move => exact fun _ hno => (List.not_mem_nil hno).elim
      | mkdir => exact fun _ hno => (List.not_mem_nil hno).elim
      | delete => exact absurd haction hdelete
  | some target =>
      cases haction : request.action with
      | rename =>
          right
          intro operation hmem
          obtain ⟨path, -, rfl⟩ := List.mem_map.mp hmem
          exact .inl ⟨path, target, rfl⟩
      | move => exact .inl ⟨target, rfl⟩
      | delete => exact absurd haction hdelete
      | mkdir =>
          right
          intro operation hmem
          rw [List.mem_singleton] at hmem
          exact .inr ⟨_, _, hmem⟩

theorem operations_keep {request : FileOperationRequest} (hdelete : request.action ≠ .delete)
    {step : Step β} (hmem : step ∈ steps sys base request.operations t) (path : Path) :
    step.1 ≠ .delete path := by
  obtain ⟨operation, hoperation, hcall⟩ := steps_mem hmem
  rcases operations_cases request hdelete with ⟨target, hmove⟩ | hothers
  · rw [hmove, List.mem_singleton] at hoperation
    rw [hoperation, Operation.calls, List.mem_map] at hcall
    obtain ⟨sourcePath, -, heq⟩ := hcall
    rw [← heq]
    simp
  · rcases hothers operation hoperation with ⟨path', newName, rfl⟩ | ⟨parentPath, name, rfl⟩
    · rw [List.mem_singleton.mp hcall]
      simp
    · rw [List.mem_singleton.mp hcall]
      simp

/-- No call of a request finds more than there was. -/
theorem operations_contents_ge {request : FileOperationRequest} (hdelete : request.action ≠ .delete)
    (sys : System β) (base : List FileName) (t : Tree β) :
    ∀ step ∈ steps sys base request.operations t, step.2.contents ≤ t.contents := by
  rcases operations_cases request hdelete with ⟨target, hmove⟩ | hothers
  · rw [hmove, steps, steps, List.append_nil]
    refine untilError_before (I := fun s => s.contents ≤ t.contents) ?_ le_rfl
    intro step hmem hbefore t' hrun
    obtain ⟨sourcePath, -, heq⟩ := List.mem_map.mp (untilError_mem hmem)
    rw [← heq] at hrun
    exact (move_contents_ge hrun).trans hbefore
  · refine (steps_invariant (I := fun s => s.contents ≤ t.contents) ?_ le_rfl).1
    intro step hmem hbefore
    obtain ⟨operation, hoperation, hcall⟩ := steps_mem hmem
    rw [Step.after]
    rcases hothers operation hoperation with ⟨path, newName, rfl⟩ | ⟨parentPath, name, rfl⟩
    · rw [List.mem_singleton.mp hcall]
      exact (rename_contents_ge sys base path newName step.2).trans hbefore
    · rw [List.mem_singleton.mp hcall]
      obtain ⟨q, -, hadds⟩ := mkdir_adds sys base parentPath name step.2
      exact hadds.contents_eq.le.trans hbefore

/-- A request that deletes nothing loses no content exactly as long as it moves no file onto
another one. -/
theorem lossless_iff (sys : System β) (base : List FileName) (request : FileOperationRequest)
    (hdelete : request.action ≠ .delete) (t : Tree β) :
    ((∀ step ∈ steps sys base request.operations t,
        t.contents ≤ (step.after sys base).contents) ∧
      t.contents ≤ (final (handleOperation sys base request) t).contents) ↔
        ∀ step ∈ steps sys base request.operations t, ¬ Overwrites base step.2 step.1 := by
  rw [handleOperation_final]
  constructor
  · rintro ⟨hafter, -⟩ step hmem hoverwrites
    have hlt := hoverwrites.contents_lt sys
    have hbefore := operations_contents_ge hdelete sys base t step hmem
    exact absurd (hafter step hmem) (hlt.trans_le hbefore).not_ge
  · intro hno
    have hstep : ∀ step ∈ steps sys base request.operations t,
        t.contents ≤ step.2.contents → t.contents ≤ (step.after sys base).contents := fun step hmem h =>
      h.trans (Call.contents_le sys (operations_keep hdelete hmem) (hno step hmem))
    obtain ⟨hbefore, hfinal⟩ :=
      steps_invariant (I := fun s => t.contents ≤ s.contents) hstep le_rfl
    exact ⟨fun step hmem => hstep step hmem (hbefore step hmem), hfinal⟩

end Requests

section Sample

def shelf : FileName := ⟨['s'], by decide, by decide, by decide, by decide⟩
def oldBox : FileName := ⟨['x'], by decide, by decide, by decide, by decide⟩
def film : FileName := ⟨['m'], by decide, by decide, by decide, by decide⟩
def sequel : FileName := ⟨['q'], by decide, by decide, by decide, by decide⟩

/-- Two films, and another one of the first one's name in a box. -/
def shelfTree : Tree ℕ :=
  (((((FileTree.bare.insert [] shelf .dir bare_root (by decide)).insert [shelf] film (.file 0)
    (by decide) (by decide)).insert [shelf] sequel (.file 1) (by decide) (by decide)).insert [shelf]
      oldBox .dir (by decide) (by decide)).insert [shelf, oldBox] film (.file 2) (by decide)
        (by decide))

/-- The other one may be moved into the box. -/
theorem lossless_sample : shelfTree.contents ≤
    (final (handleOperation (.sorted 40 1000) [shelf] ⟨.move, [['q']], some ['x']⟩)
      shelfTree).contents := by
  refine ((lossless_iff (.sorted 40 1000) [shelf] ⟨.move, [['q']], some ['x']⟩ (by decide)
    shelfTree).mpr ?_).2
  intro step hstep
  have hsteps : steps (.sorted 40 1000) [shelf]
      (FileOperationRequest.mk .move [['q']] (some ['x'])).operations shelfTree =
        [(.move ['q'] ['x'], shelfTree)] := rfl
  rw [hsteps, List.mem_singleton] at hstep
  rw [hstep]
  rintro ⟨src, target, hsrc, htarget, -, content, lost, -, hlost⟩
  have hsequel : resolvePath [shelf] ['q'] shelfTree = .ok [shelf, sequel] shelfTree := rfl
  have hbox : resolvePath [shelf] ['x'] shelfTree = .ok [shelf, oldBox] shelfTree := rfl
  rw [hsequel] at hsrc
  rw [hbox] at htarget
  cases hsrc
  cases htarget
  cases hlost

/-- A film is lost by a move into the box, and by a rename to the other one's name. -/
theorem film_lost :
    ¬ shelfTree.contents ≤
      (final (handleOperation (.sorted 40 1000) [shelf] ⟨.move, [['m']], some ['x']⟩)
        shelfTree).contents ∧
    ¬ shelfTree.contents ≤
      (final (handleOperation (.sorted 40 1000) [shelf] ⟨.rename, [['m']], some ['q']⟩)
        shelfTree).contents := by
  have hmove : Overwrites [shelf] shelfTree (.move ['m'] ['x']) :=
    ⟨[shelf, film], [shelf, oldBox], rfl, rfl, by decide, 0, 2, by decide, by decide⟩
  have hrename : Overwrites [shelf] shelfTree (.rename ['m'] ['q']) :=
    ⟨[shelf, film], sequel, rfl, by decide, by decide, by decide, 0, 1, by decide, by decide⟩
  constructor
  · rw [handleOperation_final]
    have hfinal : runAll (.sorted 40 1000) [shelf]
        (FileOperationRequest.mk .move [['m']] (some ['x'])).operations shelfTree =
          final (Call.run (.sorted 40 1000) [shelf] (.move ['m'] ['x'])) shelfTree := by
      change final (Operation.run (.sorted 40 1000) [shelf] (.moveBatch [['m']] ['x'])) shelfTree = _
      rw [Operation.run_eq, Operation.calls, List.map_singleton, List.forM_eq_forM, List.forM_cons]
      exact final_bind_left fun _ _ => rfl
    rw [hfinal]
    exact (hmove.contents_lt _).not_ge
  · rw [handleOperation_final]
    exact (hrename.contents_lt _).not_ge

end Sample

end SmartMedia.Storage
