import SmartMedia.Storage.Moves

/-!
# Runs of local storage

What the operations on single paths leave of a tree, and the steps of which the batch forms and
`handle_operation` are made: a batch ends with its first exception, a sequence of operations goes
on after it.
-/
namespace SmartMedia.Storage
open Media StateProgram LocalStorageProvider

variable {β : Type} {sys : System β} {base : List FileName} {t t' : Tree β}

/-- The operations on single paths. -/
inductive Call
  | mkdir (parentPath name : Path)
  | rename (path newName : Path)
  | move (sourcePath targetDir : Path)
  | delete (path : Path)
  deriving DecidableEq, Repr

inductive Operation
  | call (c : Call)
  | moveBatch (sourcePaths : List Path) (targetDir : Path)
  | deleteBatch (paths : List Path)
  deriving DecidableEq, Repr

section Effects

theorem final_mapToFileItem {α : Type} {m : FileM β α} {p : α → List FileName} :
    final (m >>= fun a => LocalStorageProvider.mapToFileItem sys (p a)) t = final m t := by
  apply final_bind_left
  intro a s
  unfold LocalStorageProvider.mapToFileItem
  rw [final, get_bind]
  split_ifs
  · rfl
  · rfl

theorem makedirsAbove_adds (sys : System β) {parent : List FileName} (hparent : Plain t parent) :
    AddsDirs parent t (final (LocalStorageProvider.mkdir.makedirsAbove sys parent) t) := by
  unfold LocalStorageProvider.mkdir.makedirsAbove
  have hmakedirs := (makedirs_spec sys true hparent).1
  have hlast : ∀ s : Tree β, final (get >>= fun t => if isDir sys t parent = true then pure ()
      else throw .osError : FileM β Unit) s = s := by
    intro s
    rw [final, get_bind]
    split_ifs
    · rfl
    · rfl
  rw [final, get_bind]
  split_ifs
  · rw [← final, final_bind_left fun _ => hlast]
    cases hmake : makedirs sys true parent t with
    | ok u t' =>
        rw [final_ok hmake] at hmakedirs
        rw [final_ok (tryCatch_ok hmake)]
        exact hmakedirs
    | error e t' =>
        rw [final_error hmake] at hmakedirs
        rw [final, tryCatch_error hmake]
        split_ifs
        · exact hmakedirs
        · exact hmakedirs
  · have hsame := hlast t
    rw [final] at hsame
    rw [hsame]
    exact .refl parent t

/-- New directories are all that `mkdir` leaves. -/
theorem mkdir_adds (sys : System β) (base : List FileName) (parentPath name : Path) (t : Tree β) :
    ∃ q, base <+: q ∧ AddsDirs q t (final (LocalStorageProvider.mkdir sys base parentPath name) t) := by
  unfold LocalStorageProvider.mkdir
  split_ifs with hslash
  · exact ⟨base, List.prefix_rfl, .refl base t⟩
  · dsimp only
    rcases resolvePath_cases base parentPath t with ⟨e, h⟩ | ⟨resolved, h, hplain, hbase⟩
    · rw [final_error (bind_error h)]
      exact ⟨base, List.prefix_rfl, .refl base t⟩
    · rw [final, bind_ok h]
      cases hpart : part? name with
      | none =>
          refine ⟨resolved, hbase, ?_⟩
          have hadds := (makedirs_spec sys true hplain).1
          rw [← final_mapToFileItem (p := fun _ => resolved)] at hadds
          exact hadds
      | some part =>
          cases part with
          | up => exact ⟨resolved, hbase, makedirsAbove_adds sys hplain⟩
          | name n =>
              simp only
              split_ifs with hnul
              · refine ⟨resolved, hbase, ?_⟩
                have hadds := makedirsAbove_adds sys hplain
                rw [← final_bind_left (f := fun _ => throw .raised) fun _ _ => rfl] at hadds
                exact hadds
              · refine ⟨resolved ++ [n], hbase.trans (List.prefix_append _ _), ?_⟩
                have hadds := makedirs_name sys true n hplain
                rw [← final_mapToFileItem (p := fun _ => resolved ++ [n])] at hadds
                exact hadds

theorem rename_name {path newName : Path} {resolved : List FileName} {n : FileName}
    (hresolve : resolvePath base path t = .ok resolved t) (hpart : part? newName = some (.name n))
    (hnul : '\x00' ∉ n.chars) :
    final (LocalStorageProvider.rename sys base path newName) t =
      final (osRename sys resolved (resolved.dropLast ++ [n])) t := by
  have hslash : '/' ∉ newName := by
    intro hslash
    rw [part?, dif_neg fun h => h.2.1 hslash] at hpart
    split_ifs at hpart
    cases hpart
  unfold LocalStorageProvider.rename
  rw [if_neg hslash]
  dsimp only
  rw [final, bind_ok hresolve, hpart]
  simp only
  rw [if_neg hnul, ← final]
  exact final_mapToFileItem (p := fun _ => resolved.dropLast ++ [n])

/-- Nothing is renamed to its own directory. -/
theorem osRename_parent (sys : System β) {p : List FileName} (hp : Plain t p) :
    final (osRename sys p p.dropLast) t = t := by
  rcases osRename_cases sys p p.dropLast t with ⟨e, h⟩ | ⟨-, -, -, -, -, -, h⟩ |
    ⟨a, b, hreplace, ha, hb, hsome, hne, h⟩
  · exact final_error h
  · exact final_ok h
  · obtain rfl := entry_path hp ha
    have hparent : (entryPath a).dropLast = a.1 := List.dropLast_concat
    rw [hparent] at hb
    have hb' := entry_path (hp.mono (List.prefix_append a.1 [a.2])) hb
    have hdir := t.closed a.1 a.2 hsome
    rw [← hb'] at hdir
    rcases hreplace.kind with hnone | ⟨-, -, hempty⟩ | ⟨-, hnot⟩
    · rw [entryPath, hnone] at hdir
      cases hdir
    · have hbelow : entryPath b <+: entryPath a := by
        rw [hb']
        exact List.prefix_append a.1 [a.2]
      exact absurd (hempty _ ((t.mem_keys _).mpr hsome) hbelow) hne
    · exact absurd hdir hnot

/-- Other renames change nothing. -/
theorem rename_cases (sys : System β) (base : List FileName) (path newName : Path) (t : Tree β) :
    final (LocalStorageProvider.rename sys base path newName) t = t ∨
      ∃ resolved n, resolvePath base path t = .ok resolved t ∧ part? newName = some (.name n) ∧
        '\x00' ∉ n.chars ∧ Plain t resolved ∧ base <+: resolved := by
  rcases resolvePath_cases base path t with ⟨e, h⟩ | ⟨resolved, h, hplain, hbase⟩
  · left
    unfold LocalStorageProvider.rename
    split_ifs
    · rfl
    · exact final_error (bind_error h)
  · cases hpart : part? newName with
    | none =>
        left
        unfold LocalStorageProvider.rename
        split_ifs
        · rfl
        · dsimp only
          rw [final, bind_ok h, hpart, ← final,
            final_mapToFileItem (p := fun _ => resolved.dropLast)]
          exact osRename_parent sys hplain
    | some part =>
        cases part with
        | up =>
            left
            unfold LocalStorageProvider.rename
            split_ifs
            · rfl
            · dsimp only
              rw [final, bind_ok h, hpart]
              rfl
        | name n =>
            by_cases hnul : '\x00' ∈ n.chars
            · left
              unfold LocalStorageProvider.rename
              split_ifs
              · rfl
              · dsimp only
                rw [final, bind_ok h, hpart]
                simp only
                rw [if_pos hnul]
                rfl
            · exact .inr ⟨resolved, n, h, rfl, hnul, hplain, hbase⟩

theorem move_run {sourcePath targetDir : Path} {src target : List FileName}
    (hsrc : resolvePath base sourcePath t = .ok src t)
    (htarget : resolvePath base targetDir t = .ok target t) :
    LocalStorageProvider.move sys base sourcePath targetDir t =
      (shutilMove sys src (target ++ src.getLast?.toList) >>= fun _ =>
        mapToFileItem sys (target ++ src.getLast?.toList)) t := by
  unfold LocalStorageProvider.move
  rw [bind_ok hsrc, bind_ok htarget]

/-- Other moves change nothing. -/
theorem move_cases (sys : System β) (base : List FileName) (sourcePath targetDir : Path)
    (t : Tree β) :
    (∃ e, LocalStorageProvider.move sys base sourcePath targetDir t = .error e t) ∨
      ∃ src target, resolvePath base sourcePath t = .ok src t ∧
        resolvePath base targetDir t = .ok target t ∧ Plain t src ∧ Plain t target ∧
          base <+: src ∧ base <+: target := by
  rcases resolvePath_cases base sourcePath t with ⟨e, h⟩ | ⟨src, h, hplain, hbase⟩
  · exact .inl ⟨e, bind_error h⟩
  · rcases resolvePath_cases base targetDir t with ⟨e, h'⟩ | ⟨target, h', hplain', hbase'⟩
    · left
      refine ⟨e, ?_⟩
      unfold LocalStorageProvider.move
      rw [bind_ok h, bind_error h']
    · exact .inr ⟨src, target, h, h', hplain, hplain', hbase, hbase'⟩

theorem delete_dir {path : Path} {resolved : List FileName}
    (hresolve : resolvePath base path t = .ok resolved t) (hdir : t.lookup resolved = some .dir)
    (hroot : resolved ≠ []) :
    final (LocalStorageProvider.delete sys base path) t = t.remove resolved hroot := by
  have hplain := plain_of_dir hdir
  obtain ⟨above, n, rfl⟩ := List.eq_nil_or_concat' resolved |>.resolve_left hroot
  have hentry : entry sys t (above ++ [n]) = some (above, n) := by
    rw [entry_plain (hplain.mono (List.prefix_append _ _)), if_pos]
    apply t.closed above n
    rw [hdir]
    simp
  unfold LocalStorageProvider.delete
  rw [final, bind_ok hresolve, get_bind, if_pos ((isDir_plain hplain).mpr hdir)]
  unfold rmtree
  rw [get_bind, hentry]
  simp only
  rw [if_pos hdir]
  rfl

theorem delete_cases (sys : System β) (base : List FileName) (path : Path) (t : Tree β) :
    final (LocalStorageProvider.delete sys base path) t = t ∨
      ∃ resolved, resolvePath base path t = .ok resolved t ∧ base <+: resolved ∧
        ((∃ h : resolved ≠ [], final (LocalStorageProvider.delete sys base path) t =
          t.remove resolved h) ∨
          resolved = [] ∧ final (LocalStorageProvider.delete sys base path) t = FileTree.bare) := by
  rcases resolvePath_cases base path t with ⟨e, h⟩ | ⟨resolved, h, hplain, hbase⟩
  · exact .inl (final_error (bind_error h))
  · rcases List.eq_nil_or_concat' resolved with rfl | ⟨above, n, rfl⟩
    · right
      refine ⟨[], h, hbase, .inr ⟨rfl, ?_⟩⟩
      unfold LocalStorageProvider.delete
      rw [final, bind_ok h, get_bind, if_pos ((isDir_plain plain_nil).mpr t.root)]
      rfl
    · by_cases hdir : t.lookup (above ++ [n]) = some .dir
      · exact .inr ⟨above ++ [n], h, hbase, .inl ⟨by simp, delete_dir h hdir (by simp)⟩⟩
      · unfold LocalStorageProvider.delete
        rw [final, bind_ok h, get_bind, if_neg ((isDir_plain hplain).not.mpr hdir)]
        unfold unlink
        rw [get_bind, entry_plain (hplain.mono (List.prefix_append _ _))]
        by_cases habove : t.lookup above = some .dir
        · rw [if_pos habove]
          by_cases hnone : t.lookup (above ++ [n]) = none
          · left
            simp only
            rw [if_pos (.inl hnone)]
            rfl
          · right
            refine ⟨above ++ [n], h, hbase, .inl ⟨by simp, ?_⟩⟩
            simp only
            rw [if_neg (not_or.mpr ⟨hnone, hdir⟩)]
            rfl
        · left
          rw [if_neg habove]
          rfl

end Effects

section Runs
variable (sys : System β) (base : List FileName)

def Call.run : Call → FileM β Unit
  | .mkdir parentPath name => LocalStorageProvider.mkdir sys base parentPath name
  | .rename path newName => LocalStorageProvider.rename sys base path newName
  | .move sourcePath targetDir => LocalStorageProvider.move sys base sourcePath targetDir
  | .delete path => LocalStorageProvider.delete sys base path

/-- A call and the tree it finds. -/
abbrev Step (β : Type) := Call × Tree β

def Step.after (step : Step β) : Tree β := final (step.1.run sys base) step.2

def Operation.run : Operation → FileM β Unit
  | .call c => c.run sys base
  | .moveBatch sourcePaths targetDir => LocalStorageProvider.moveBatch sys base sourcePaths targetDir
  | .deleteBatch paths => LocalStorageProvider.deleteBatch sys base paths

def Operation.calls : Operation → List Call
  | .call c => [c]
  | .moveBatch sourcePaths targetDir => sourcePaths.map fun path => .move path targetDir
  | .deleteBatch paths => paths.map .delete

/-- Calls one after the other, up to the first exception. -/
def untilError : List Call → Tree β → List (Step β)
  | [], _ => []
  | c :: rest, t =>
      (c, t) :: match c.run sys base t with
        | .ok _ t' => untilError rest t'
        | .error _ _ => []

/-- The tree after operations, each of which may raise. -/
def runAll : List Operation → Tree β → Tree β
  | [], t => t
  | operation :: rest, t => runAll rest (final (operation.run sys base) t)

/-- All calls that are made. -/
def steps : List Operation → Tree β → List (Step β)
  | [], _ => []
  | operation :: rest, t =>
      untilError sys base operation.calls t ++ steps rest (final (operation.run sys base) t)

end Runs

section Invariants
variable {I : Tree β → Prop} {operation : Operation} {operations : List Operation}

theorem Operation.run_eq (sys : System β) (base : List FileName) (operation : Operation) (t : Tree β) :
    final (operation.run sys base) t =
      final (operation.calls.forM fun c => c.run sys base : FileM β Unit) t := by
  cases operation with
  | call c =>
      rw [Operation.calls, List.forM_eq_forM, List.forM_cons]
      exact (final_bind_left fun _ _ => rfl).symm
  | moveBatch sourcePaths targetDir =>
      rw [Operation.calls, List.forM_eq_forM, List.forM_map]
      rfl
  | deleteBatch paths =>
      rw [Operation.calls, List.forM_eq_forM, List.forM_map]
      rfl

/-- An invariant of the calls that are made, as long as none raises. -/
theorem untilError_invariant {calls : List Call}
    (hstep : ∀ step ∈ untilError sys base calls t, I step.2 → I (step.after sys base)) (ht : I t) :
    (∀ step ∈ untilError sys base calls t, I step.2) ∧
      I (final (calls.forM fun c => c.run sys base : FileM β Unit) t) := by
  induction calls generalizing t with
  | nil => exact ⟨fun _ hno => (List.not_mem_nil hno).elim, ht⟩
  | cons c rest ih =>
      have hfirst : I (final (c.run sys base) t) := hstep (c, t) List.mem_cons_self ht
      rw [untilError] at hstep ⊢
      rw [List.forM_eq_forM, List.forM_cons]
      cases hc : c.run sys base t with
      | ok u t' =>
          rw [hc] at hstep
          rw [final_ok hc] at hfirst
          obtain ⟨hsteps, hfinal⟩ := ih (fun step hmem => hstep step (List.mem_cons_of_mem _ hmem)) hfirst
          refine ⟨?_, ?_⟩
          · rintro step (_ | ⟨_, hmem⟩)
            · exact ht
            · exact hsteps step hmem
          · rw [final, bind_ok hc]
            exact hfinal
      | error e t' =>
          rw [final_error hc] at hfirst
          refine ⟨?_, ?_⟩
          · rintro step (_ | ⟨_, hmem⟩)
            · exact ht
            · cases hmem
          · rw [final_error (bind_error hc)]
            exact hfirst

theorem untilError_mem {calls : List Call} {step : Step β}
    (hmem : step ∈ untilError sys base calls t) : step.1 ∈ calls := by
  induction calls generalizing t with
  | nil => cases hmem
  | cons c rest ih =>
      rw [untilError] at hmem
      rcases List.mem_cons.mp hmem with rfl | hmem
      · exact List.mem_cons_self
      · cases hc : c.run sys base t with
        | ok u t' =>
            rw [hc] at hmem
            exact List.mem_cons_of_mem c (ih hmem)
        | error e t' =>
            rw [hc] at hmem
            cases hmem

/-- What every call finds that is made after others without an exception. -/
theorem untilError_before {calls : List Call} (hstep : ∀ step ∈ untilError sys base calls t,
    I step.2 → ∀ t', step.1.run sys base step.2 = .ok () t' → I t') (ht : I t) :
    ∀ step ∈ untilError sys base calls t, I step.2 := by
  induction calls generalizing t with
  | nil => exact fun _ hno => (List.not_mem_nil hno).elim
  | cons c rest ih =>
      have hfirst := hstep (c, t) List.mem_cons_self ht
      rw [untilError] at hstep ⊢
      intro step hmem
      rcases List.mem_cons.mp hmem with rfl | hmem
      · exact ht
      · cases hc : c.run sys base t with
        | ok u t' =>
            rw [hc] at hmem hstep
            exact ih (fun step hmem => hstep step (List.mem_cons_of_mem _ hmem)) (hfirst t' hc) step hmem
        | error e t' =>
            rw [hc] at hmem
            cases hmem

theorem steps_mem {step : Step β} (hmem : step ∈ steps sys base operations t) :
    ∃ operation ∈ operations, step.1 ∈ operation.calls := by
  induction operations generalizing t with
  | nil => cases hmem
  | cons operation rest ih =>
      rcases List.mem_append.mp hmem with hmem | hmem
      · exact ⟨operation, List.mem_cons_self, untilError_mem hmem⟩
      · obtain ⟨later, hlater, hcall⟩ := ih hmem
        exact ⟨later, List.mem_cons_of_mem _ hlater, hcall⟩

/-- An invariant of all calls that are made. -/
theorem steps_invariant (hstep : ∀ step ∈ steps sys base operations t, I step.2 → I (step.after sys base))
    (ht : I t) :
    (∀ step ∈ steps sys base operations t, I step.2) ∧ I (runAll sys base operations t) := by
  induction operations generalizing t with
  | nil => exact ⟨fun _ hno => (List.not_mem_nil hno).elim, ht⟩
  | cons operation rest ih =>
      rw [steps] at hstep ⊢
      obtain ⟨hfirst, hthen⟩ := untilError_invariant
        (fun step hmem => hstep step (List.mem_append_left _ hmem)) ht
      rw [← Operation.run_eq] at hthen
      obtain ⟨hrest, hfinal⟩ := ih (fun step hmem => hstep step (List.mem_append_right _ hmem)) hthen
      refine ⟨fun step hmem => ?_, hfinal⟩
      rcases List.mem_append.mp hmem with hmem | hmem
      · exact hfirst step hmem
      · exact hrest step hmem

end Invariants

end SmartMedia.Storage
