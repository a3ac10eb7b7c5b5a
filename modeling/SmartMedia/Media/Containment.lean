import Mathlib.Data.List.TakeWhile
import SmartMedia.Media.Rollback
import SmartMedia.Media.StrmAgreement
import SmartMedia.Media.Validators

/-!
# Where a smart rename puts the files

The new name of an operation is joined to the directory of the planned path. Whether the
result stays there is decided by the part of the name before its last slash: neither the
counter of an occupied target nor the extensions of the related files contain a slash,
so that every file of the row goes where the joined path says.
-/
namespace SmartMedia.Media
open StateProgram

/-- A path up to its last slash. -/
def upToSlash (p : Path) : Path := (p.reverse.dropWhile (· ≠ '/')).reverse

section Directories
variable {p q s : Path}

theorem components_slashes (hs : ∀ c ∈ s, c = '/') : components s = [] := by
  induction s with
  | nil => rfl
  | cons c cs ih =>
      rw [hs c List.mem_cons_self, components_slash]
      exact ih fun c hc => hs c (List.mem_cons_of_mem _ hc)

/-- Trailing slashes add no component. -/
theorem components_trailing (p : Path) (hs : ∀ c ∈ s, c = '/') :
    components (p ++ s) = components p := by
  cases s with
  | nil => rw [List.append_nil]
  | cons c cs =>
      have hrest : components cs = [] :=
        components_slashes fun c hc => hs c (List.mem_cons_of_mem _ hc)
      rw [hs c List.mem_cons_self, components_append, hrest, List.append_nil]

/-- Two ways to write one directory. -/
structure SameDirectory (p q : Path) : Prop where
  rooted : p.head? = some '/' ↔ q.head? = some '/'
  parts : components p = components q

theorem SameDirectory.resolve {cwd : List Path} (h : SameDirectory p q) :
    resolve cwd p [] = resolve cwd q [] := by
  have hrooted : (p.head? = some '/') = (q.head? = some '/') := propext h.rooted
  simp only [Media.resolve, h.parts, hrooted]

/-- `dirname` strips the slashes after the directory. -/
theorem dirname_same (p : Path) : SameDirectory (dirname p) (upToSlash p) := by
  rw [dirname, upToSlash]
  generalize (p.reverse.dropWhile (· ≠ '/')) = head
  by_cases hall : head.all (· = '/') = true
  · have hslash : ∀ c ∈ head, c = '/' := fun c hc => of_decide_eq_true (List.all_eq_true.mp hall c hc)
    have hreverse : head.reverse = head := by
      rw [List.eq_replicate_iff.mpr ⟨rfl, hslash⟩, List.reverse_replicate]
    simp only [hall, if_true, hreverse]
    exact ⟨Iff.rfl, rfl⟩
  · simp only [hall, Bool.false_eq_true, if_false]
    have hparts : head.reverse =
        (head.dropWhile (· = '/')).reverse ++ (head.takeWhile (· = '/')).reverse := by
      rw [← List.reverse_append, List.takeWhile_append_dropWhile]
    have hslash : ∀ c ∈ (head.takeWhile (· = '/')).reverse, c = '/' := by
      intro c hc
      have htaken := List.mem_takeWhile_imp (List.mem_reverse.mp hc)
      simpa using htaken
    have hkept : (head.dropWhile (· = '/')).reverse ≠ [] := by
      intro he
      refine hall (List.all_eq_true.mpr fun c hc => ?_)
      have hdrop := List.reverse_eq_nil_iff.mp he
      exact List.dropWhile_eq_nil_iff.mp hdrop c hc
    rw [hparts]
    refine ⟨?_, (components_trailing _ hslash).symm⟩
    rw [List.head?_append_of_ne_nil _ hkept]

theorem upToSlash_append (hs : '/' ∉ s) (p : Path) : upToSlash (p ++ s) = upToSlash p := by
  rw [upToSlash, upToSlash, List.reverse_append, List.dropWhile_append_of_pos]
  intro c hc
  refine decide_eq_true fun he => hs ?_
  rw [← he]
  exact List.mem_reverse.mp hc

theorem dirname_append (hs : '/' ∉ s) (p : Path) : dirname (p ++ s) = dirname p := by
  have hhead : (p ++ s).reverse.dropWhile (· ≠ '/') = p.reverse.dropWhile (· ≠ '/') :=
    List.reverse_injective (upToSlash_append hs p)
  rw [dirname, dirname, hhead]

theorem splitext_noSlash (p : Path) : '/' ∉ (splitext p).2 := by
  rcases splitext_cases p with ⟨rest, -, -, hs⟩ | ⟨-, hs⟩
  · rw [hs, List.mem_cons, not_or]
    refine ⟨by decide, fun hc => ?_⟩
    have hlast := List.mem_takeWhile_imp (List.mem_reverse.mp hc)
    simp at hlast
  · rw [hs]
    exact List.not_mem_nil

theorem dirname_splitext (p : Path) : dirname (splitext p).1 = dirname p := by
  conv_rhs => rw [← splitext_join p]
  exact (dirname_append (splitext_noSlash p) _).symm

theorem digit_noSlash (n : ℕ) : '/' ∉ Nat.toDigits 10 n := by
  intro h
  have hdigit := Nat.isDigit_of_mem_toDigits (by decide) (by decide) h
  exact absurd hdigit (by decide)

/-- A counter changes the file name only. -/
theorem dirname_freePath {β : Type} (fs : FileMap Path β) (p : Path) :
    dirname (freePath fs p) = dirname p := by
  rw [freePath]
  split_ifs
  · rw [numbered, dirname_append _ (splitext p).1, dirname_splitext]
    rw [List.mem_append, List.mem_cons, not_or, not_or]
    exact ⟨⟨by decide, digit_noSlash _⟩, splitext_noSlash p⟩
  · rfl

/-- What `join` puts before a relative path. -/
def joinHead (dir : Path) : Path :=
  if dir = [] ∨ dir.getLast? = some '/' then dir else dir ++ ['/']

theorem join_relative {dir name : Path} (h : name.head? ≠ some '/') :
    join dir name = joinHead dir ++ name := by
  rw [join, if_neg h, joinHead]
  split_ifs
  · rfl
  · rw [List.append_assoc, List.singleton_append]

theorem joinHead_cases (dir : Path) : joinHead dir = [] ∨ ∃ front, joinHead dir = front ++ ['/'] := by
  rw [joinHead]
  split_ifs with h
  · rcases h with h | h
    · exact .inl h
    · exact .inr ⟨dir.dropLast, (List.dropLast_append_getLast? '/' h).symm⟩
  · exact .inr ⟨dir, rfl⟩

theorem upToSlash_joinHead (dir name : Path) :
    upToSlash (joinHead dir ++ name) = joinHead dir ++ upToSlash name := by
  have hkept : (joinHead dir).reverse.dropWhile (· ≠ '/') = (joinHead dir).reverse := by
    rcases joinHead_cases dir with h | ⟨front, h⟩
    · rw [h]
      rfl
    · rw [h, List.reverse_append]
      rfl
  rw [upToSlash, upToSlash, List.reverse_append, List.dropWhile_append]
  split_ifs with hempty
  · rw [hkept, List.isEmpty_iff.mp hempty, List.reverse_reverse, List.reverse_nil, List.append_nil]
  · rw [List.reverse_append, List.reverse_reverse]

theorem SameDirectory.joined (h : SameDirectory p q) (dir : Path) :
    SameDirectory (joinHead dir ++ p) (joinHead dir ++ q) := by
  rcases joinHead_cases dir with he | ⟨front, he⟩
  · rw [he]
    exact h
  · rw [he, List.append_assoc, List.append_assoc, List.singleton_append, List.singleton_append]
    refine ⟨?_, by rw [components_append, components_append, h.parts]⟩
    cases front with
    | nil => exact Iff.rfl
    | cons c cs => exact Iff.rfl

theorem upToSlash_prefix (p : Path) : upToSlash p <+: p := by
  refine ⟨(p.reverse.takeWhile (· ≠ '/')).reverse, ?_⟩
  rw [upToSlash, ← List.reverse_append, List.takeWhile_append_dropWhile, List.reverse_reverse]

/-- A path begins with a slash exactly if its directory does. -/
theorem head_dirname (p : Path) : (dirname p).head? = some '/' ↔ p.head? = some '/' := by
  rw [(dirname_same p).rooted]
  constructor
  · intro h
    obtain ⟨rest, hrest⟩ := upToSlash_prefix p
    obtain ⟨tail, htail⟩ := List.head?_eq_some_iff.mp h
    rw [← hrest, htail]
    rfl
  · intro h
    obtain ⟨tail, rfl⟩ := List.head?_eq_some_iff.mp h
    rw [upToSlash, List.reverse_cons, List.dropWhile_append]
    split_ifs
    · rfl
    · rw [List.reverse_append]
      rfl

/-- The directory of a joined path is that of its name, taken from the directory. -/
theorem dirname_join (dir name : Path) :
    SameDirectory (dirname (join dir name)) (join dir (dirname name)) := by
  by_cases hname : name.head? = some '/'
  · rw [join, if_pos hname, join, if_pos ((head_dirname name).mpr hname)]
    exact ⟨Iff.rfl, rfl⟩
  · have hdirname : (dirname name).head? ≠ some '/' := fun h => hname ((head_dirname name).mp h)
    rw [join_relative hname, join_relative hdirname]
    have hleft := dirname_same (joinHead dir ++ name)
    have hright := (dirname_same name).joined dir
    rw [upToSlash_joinHead] at hleft
    exact ⟨hleft.rooted.trans hright.rooted.symm, hleft.parts.trans hright.parts.symm⟩

theorem dirname_ne_nil (h : '/' ∈ p) : dirname p ≠ [] := by
  have hhead : p.reverse.dropWhile (· ≠ '/') ≠ [] := by
    intro he
    have hall := List.dropWhile_eq_nil_iff.mp he '/' (List.mem_reverse.mpr h)
    exact absurd hall (by decide)
  rw [dirname]
  split_ifs with hall
  · exact hhead
  · intro he
    have hdrop := List.reverse_eq_nil_iff.mp he
    exact hall (List.all_eq_true.mpr (List.dropWhile_eq_nil_iff.mp hdrop))

theorem slash_mem_join {name : Path} (dir : Path) (h : '/' ∈ name) : '/' ∈ join dir name := by
  rw [join]
  split_ifs
  · exact h
  · exact List.mem_append_right _ h
  · exact List.mem_append_right _ (List.mem_cons_of_mem _ h)

/-- Without a slash there is nothing to follow. -/
theorem join_dirname_of_noSlash {name : Path} (dir : Path) (h : '/' ∉ name) :
    SameDirectory (join dir (dirname name)) dir := by
  have hdirname : dirname name = [] := by
    have happend := dirname_append h []
    rwa [List.nil_append] at happend
  rw [hdirname, join_relative (by decide), List.append_nil, joinHead]
  split_ifs with hdir
  · exact ⟨Iff.rfl, rfl⟩
  · rw [not_or] at hdir
    refine ⟨?_, components_trailing dir fun c hc => List.mem_singleton.mp hc⟩
    rw [List.head?_append_of_ne_nil _ hdir.1]

end Directories

variable {β : Type} {env : Env} {exts : List Path} {cwd : Path}

/-- Every move made since `d` satisfies `P`. -/
def Logged (P : FileMap.Move MoveTag Path β → Prop) (d d' : Disk β) : Prop :=
  ∃ ms, d'.log = d.log ++ ms ∧ ∀ m ∈ ms, P m

section Moves
variable {P : FileMap.Move MoveTag Path β → Prop} {d d' : Disk β}

theorem Logged.of_same (h : d'.log = d.log) : Logged P d d' :=
  ⟨[], by rw [h, List.append_nil], fun m hm => by cases hm⟩

theorem Logged.refl (d : Disk β) : Logged P d d := .of_same rfl

theorem Logged.trans (d d' d'' : Disk β) (h : Logged P d d') (h' : Logged P d' d'') :
    Logged P d d'' := by
  obtain ⟨ms, hlog, hms⟩ := h
  obtain ⟨ms', hlog', hms'⟩ := h'
  refine ⟨ms ++ ms', by rw [hlog', hlog, List.append_assoc], fun m hm => ?_⟩
  rcases List.mem_append.mp hm with hm | hm
  · exact hms m hm
  · exact hms' m hm

theorem osCall_logged (env : Env) (d : Disk β) : Leads (Logged P) (osCall env) d := by
  rcases osCall_cases env d with h | ⟨e, h⟩
  · rw [Leads, final_ok h]
    exact .of_same rfl
  · rw [Leads, final_error h]
    exact .of_same rfl

theorem makeDirs_logged (env : Env) (dir : Path) (d : Disk β) :
    Leads (Logged P) (makeDirs env dir) d := by
  unfold makeDirs
  split_ifs
  · exact .refl d
  · exact osCall_logged env d

theorem shutilMove_logged {tag : MoveTag} {src dst : Path}
    (h : ∀ file, P ⟨tag, src, dst, file⟩) (d : Disk β) :
    Leads (Logged P) (shutilMove env tag src dst) d := by
  refine leads_bind Logged.trans (osCall_logged env d) fun _ d₁ _ => ?_
  refine leads_bind Logged.trans (.refl d₁) fun d₂ _ h₂ => ?_
  cases h₂
  cases hl : d₁.files.lookup src with
  | none => exact .refl d₁
  | some file =>
      by_cases hsd : src = dst
      · refine .of_same ?_
        show (relocate tag src dst file d₁).log = d₁.log
        rw [relocate, if_pos hsd]
      · refine ⟨[⟨tag, src, dst, file⟩], ?_, fun m hm => ?_⟩
        · show (relocate tag src dst file d₁).log = _
          rw [relocate, if_neg hsd]
        · rw [List.mem_singleton.mp hm]
          exact h file

theorem moveRelated_logged {tag : MoveTag} {oldBase newBase : Path}
    (h : ∀ ext ∈ exts, ∀ file, P ⟨tag, oldBase ++ ext, newBase ++ ext, file⟩) (d : Disk β) :
    Leads (Logged P) (moveRelated env tag oldBase newBase exts) d := by
  induction exts generalizing d with
  | nil => exact .refl d
  | cons ext exts ih =>
      have hrest := ih fun e he => h e (List.mem_cons_of_mem _ he)
      refine leads_bind Logged.trans (.refl d) fun b d₁ h₁ => ?_
      cases b with
      | false => exact hrest d₁
      | true =>
          exact leads_bind Logged.trans (shutilMove_logged (h ext List.mem_cons_self) d₁)
            fun _ d₂ _ => hrest d₂

/-- A row's files go to one directory. -/
theorem moveWithRelated_logged {item : ℕ} {src dst : Path} (hexts : ∀ ext ∈ exts, '/' ∉ ext)
    (h : ∀ m : FileMap.Move MoveTag Path β, m.tag.item = item → dirname m.dst = dirname dst → P m)
    (d : Disk β) : Leads (Logged P) (moveWithRelated env exts item src dst) d := by
  refine leads_bind Logged.trans (shutilMove_logged (fun _ => h _ rfl rfl) d) fun _ d₁ _ => ?_
  refine moveRelated_logged (fun ext hext _ => h _ rfl ?_) d₁
  rw [dirname_append (hexts ext hext), dirname_splitext]

/-- All files of the row go to the directory of its target. -/
theorem SmartRenameService.executeItem_logged {item : RenameHistory}
    (hexts : ∀ ext ∈ exts, '/' ∉ ext)
    (h : item.newPath.getD [] ≠ [] → ∀ m : FileMap.Move MoveTag Path β, m.tag.item = item.id →
      dirname m.dst = dirname (item.newPath.getD []) → P m) (d : Disk β) :
    Leads (Logged P) (SmartRenameService.executeItem env exts item) d := by
  unfold SmartRenameService.executeItem
  simp only
  split_ifs with hplanned
  · exact .refl d
  · refine leads_tryCatch Logged.trans ?_ fun _ d₁ _ => .refl d₁
    refine leads_bind Logged.trans (makeDirs_logged env _ d) fun _ d₁ _ => ?_
    refine leads_bind Logged.trans (.refl d₁) fun d₂ _ hget => ?_
    cases hget
    refine leads_bind Logged.trans (moveWithRelated_logged hexts (fun m hm hdst => ?_) d₁) ?_
    · exact h hplanned m hm (hdst.trans (dirname_freePath _ _))
    · intro _ d₂ _
      refine leads_bind Logged.trans (.of_same rfl) fun _ d₃ _ => ?_
      exact leads_bind Logged.trans (.of_same rfl) fun _ d₄ _ => .refl d₄

theorem SmartRenameService.execute_logged {operations : List Operation} {batch : RenameBatch}
    (hexts : ∀ ext ∈ exts, '/' ∉ ext)
    (h : ∀ item ∈ overridden operations batch.items, selected operations item = true →
      item.newPath.getD [] ≠ [] → ∀ m : FileMap.Move MoveTag Path β, m.tag.item = item.id →
        dirname m.dst = dirname (item.newPath.getD []) → P m) (d : Disk β) :
    Leads (Logged P) (SmartRenameService.execute env exts operations batch) d := by
  unfold SmartRenameService.execute
  by_cases hs : batch.status ∈ [BatchStatus.previewing, .pending]
  · rw [if_pos hs]
    refine leads_bind Logged.trans (.of_same rfl) fun _ d₁ _ => ?_
    refine leads_bind Logged.trans (forItems_leads .refl Logged.trans _ (fun item hi hsel =>
      executeItem_logged hexts (h item hi hsel)) d₁) fun _ d₂ _ => ?_
    exact leads_bind Logged.trans (.of_same rfl) fun _ d₃ _ => .refl d₃
  · rw [if_neg hs]
    exact .refl d

end Moves

/-- The target of the preview, or where there is none the file's own path. -/
def RenameHistory.plannedPath (item : RenameHistory) : Path :=
  if item.newPath.getD [] ≠ [] then item.newPath.getD [] else item.originalPath

/-- The directory of a path, with `.` and `..` resolved. -/
def directory (cwd p : Path) : List Path := resolve (components cwd) (dirname p) []

/-- The file was moved for a row of the batch, into the directory of its planned path. -/
def InPlannedDirectory (cwd : Path) (batch : RenameBatch) (m : FileMap.Move MoveTag Path β) :
    Prop :=
  ∃ item ∈ batch.items, m.tag.item = item.id ∧
    directory cwd m.dst = directory cwd item.plannedPath

/-- The part of the name before its last slash, followed from `dir`, leads back to it. -/
def LeadsBack (cwd dir name : Path) : Prop :=
  resolve (components cwd) (join dir (dirname name)) [] = resolve (components cwd) dir []

instance (cwd dir name : Path) : Decidable (LeadsBack cwd dir name) :=
  inferInstanceAs (Decidable (_ = _))

theorem directory_join (dir name : Path) :
    directory cwd (join dir name) = resolve (components cwd) (join dir (dirname name)) [] :=
  (dirname_join dir name).resolve

theorem leadsBack_of_noSlash {dir name : Path} (h : '/' ∉ name) : LeadsBack cwd dir name :=
  (join_dirname_of_noSlash dir h).resolve

/-- `smart_execute`: the operations are validated before the batch is looked at. -/
def smartExecute (cwd : Path) (env : Env) (exts : List Path) (operations : List Operation)
    (batch : RenameBatch) : FileM β (RenameBatch × RenameExecuteResult) :=
  match validateOperations cwd operations with
  | .error e => throw e
  | .ok operations => SmartRenameService.execute env exts operations batch

namespace SmartRenameService
variable {operations : List Operation} {item : RenameHistory} {name : Path}

/-- What the override loop makes of a row with a new name. -/
theorem override_spec (hstatus : item.status ∈ [ItemStatus.matched, .parsed, .needsConfirmation])
    (hname : overrideName operations item.originalPath = some name) :
    (override operations item).id = item.id ∧
      (override operations item).originalPath = item.originalPath ∧
      (override operations item).newPath = some (join (dirname item.plannedPath) name) ∧
      (override operations item).status ∈ [ItemStatus.matched, .parsed] := by
  have hdir : (if item.newPath.getD [] ≠ [] then dirname (item.newPath.getD [])
      else dirname item.originalPath) = dirname item.plannedPath := (apply_ite dirname _ _ _).symm
  rw [override, if_pos hstatus, hname]
  simp only [hdir]
  refine ⟨trivial, trivial, trivial, ?_⟩
  revert hstatus
  cases item.status <;> decide

theorem override_of_status
    (hstatus : item.status ∉ [ItemStatus.matched, .parsed, .needsConfirmation]) :
    override operations item = item := by
  rw [override, if_neg hstatus]

theorem operations_ne_nil {original : Path} (h : overrideName operations original = some name) :
    operations.isEmpty = false := by
  cases operations with
  | nil => cases h
  | cons op ops => rfl

/-- New names that lead back keep every file in its planned directory. -/
theorem execute_inPlannedDirectory {batch : RenameBatch} (hexts : ∀ ext ∈ exts, '/' ∉ ext)
    (h : ∀ item ∈ batch.items, item.status ∈ [ItemStatus.matched, .parsed, .needsConfirmation] →
      ∀ name, overrideName operations item.originalPath = some name →
        LeadsBack cwd (dirname item.plannedPath) name) (d : Disk β) :
    Leads (Logged (InPlannedDirectory cwd batch)) (execute env exts operations batch) d := by
  refine execute_logged hexts (fun row hrow hsel hne m hm hdst => ?_) d
  rw [overridden] at hrow
  cases hops : operations.isEmpty with
  | true =>
      rw [if_pos hops] at hrow
      refine ⟨row, hrow, hm, ?_⟩
      rw [directory, directory, hdst, RenameHistory.plannedPath, if_pos hne]
  | false =>
      rw [hops, if_neg Bool.false_ne_true] at hrow
      obtain ⟨item, hitem, rfl⟩ := List.mem_map.mp hrow
      rw [selected, hops, Bool.false_or, Bool.and_eq_true, Option.isSome_iff_exists] at hsel
      obtain ⟨hstatus, name, hname⟩ := hsel
      have hopen : item.status ∈ [ItemStatus.matched, .parsed, .needsConfirmation] := by
        by_contra hno
        rw [override_of_status hno] at hstatus
        have hdone : item.status ∈ [ItemStatus.matched, .parsed] := of_decide_eq_true hstatus
        exact hno (List.mem_append_left [ItemStatus.needsConfirmation] hdone)
      have horiginal : (override operations item).originalPath = item.originalPath := by
        rw [override, if_pos hopen]
        split <;> rfl
      rw [horiginal] at hname
      obtain ⟨hid, -, hpath, -⟩ := override_spec hopen hname
      refine ⟨item, hitem, hm.trans hid, ?_⟩
      rw [directory, hdst, hpath, Option.getD_some]
      exact (directory_join _ _).trans (h item hitem hopen name hname)

end SmartRenameService

/-- An operating system that refuses the calls before the `n`-th. -/
def refusingEnv (n : ℕ) : Env where
  fails call := if call < n then some "" else none
  missing _ := ""
  now call := call

section Reaching
variable {α γ : Type} {m : FileM β α} {f : α → FileM β γ} {d d' : Disk β}
variable {move : FileMap.Move MoveTag Path β}

/-- What was logged stays logged. -/
theorem Disk.Extends.mem_log (h : d.Extends d') (hm : move ∈ d.log) : move ∈ d'.log := by
  obtain ⟨ms, hlog, -, -⟩ := h
  rw [hlog]
  exact List.mem_append_left _ hm

theorem mem_log_bind (hf : ∀ a d', Leads Disk.Extends (f a) d') (hm : move ∈ (final m d).log) :
    move ∈ (final (m >>= f) d).log := by
  cases h : m d with
  | ok a d' =>
      rw [final_ok h] at hm
      have hfinal : final (m >>= f) d = final (f a) d' := by
        rw [final, bind_ok h, final]
      rw [hfinal]
      exact Disk.Extends.mem_log (hf a d') hm
  | error e d' =>
      rw [final_error h] at hm
      rw [final_error (bind_error h)]
      exact hm

theorem mem_log_after {a : α} (h : m d = .ok a d') (hm : move ∈ (final (f a) d').log) :
    move ∈ (final (m >>= f) d).log := by
  have hfinal : final (m >>= f) d = final (f a) d' := by
    rw [final, bind_ok h, final]
  rwa [hfinal]

theorem mem_log_tryCatch {handler : String → FileM β α}
    (hh : ∀ e d', Leads Disk.Extends (handler e) d') (hm : move ∈ (final m d).log) :
    move ∈ (final (tryCatch m handler) d).log := by
  cases h : m d with
  | ok a d' =>
      rw [final_ok h] at hm
      rw [final_ok (tryCatch_ok h)]
      exact hm
  | error e d' =>
      rw [final_error h] at hm
      have hfinal : final (tryCatch m handler) d = final (handler e) d' := by
        rw [final, tryCatch_error h, final]
      rw [hfinal]
      exact Disk.Extends.mem_log (hh e d') hm

/-- A move of one row is in the log of the whole loop. -/
theorem mem_log_forItems {selected : RenameHistory → Bool}
    {run : RenameHistory → FileM β RenameHistory} {before before' : List RenameHistory}
    {item : RenameHistory} (after : List RenameHistory) (hrun : ∀ item d, Leads Disk.Extends (run item) d)
    (hbefore : forItems selected run before d = .ok before' d') (hsel : selected item = true)
    (hm : move ∈ (final (run item) d').log) :
    move ∈ (final (forItems selected run (before ++ item :: after)) d).log := by
  have hrest : ∀ items d, Leads Disk.Extends (forItems selected run items) d := fun items d =>
    forItems_leads .refl Disk.Extends.trans items (fun item _ _ => hrun item) d
  induction before generalizing d before' with
  | nil =>
      cases hbefore
      rw [List.nil_append, forItems_cons, hsel, if_pos rfl]
      refine mem_log_bind (fun item' d₁ => ?_) hm
      exact leads_bind Disk.Extends.trans (hrest after d₁) fun _ d₂ _ => .refl d₂
  | cons first before ih =>
      obtain ⟨first', d₁, rest', hfirst, hrest', -⟩ := forItems_cons_iff.mp hbefore
      have hloop := mem_log_bind (f := fun rest'' => pure (first' :: rest''))
        (fun _ d₂ => .refl d₂) (ih hrest')
      rw [List.cons_append, forItems_cons]
      exact mem_log_after hfirst hloop

end Reaching

namespace SmartRenameService
variable {operations : List Operation}

/-- How many of the calls of these rows are refused when all are. -/
def refusals (operations : List Operation) (items : List RenameHistory) : ℕ :=
  items.countP fun item => selected operations item && dirname (item.newPath.getD []) ≠ []

/-- A row whose directory is refused leaves the files alone. -/
theorem executeItem_refused (item : RenameHistory) (d : Disk β)
    (hfails : dirname (item.newPath.getD []) ≠ [] → env.fails d.calls = some "") :
    ∃ item', executeItem env exts item d = .ok item'
      { d with calls := d.calls + if dirname (item.newPath.getD []) ≠ [] then 1 else 0 } := by
  unfold executeItem
  by_cases hplanned : item.newPath.getD [] = []
  · refine ⟨item.fail "new_path is empty", ?_⟩
    rw [hplanned]
    rfl
  · simp only [if_neg hplanned]
    by_cases hdir : dirname (item.newPath.getD []) = []
    · refine ⟨item.fail (env.missing []), ?_⟩
      rw [if_neg (by rw [hdir]; exact fun h => h rfl)]
      refine (tryCatch_error (bind_error ?_)).trans rfl
      rw [makeDirs, if_pos hdir]
      rfl
    · refine ⟨item.fail "", ?_⟩
      rw [if_pos hdir]
      refine (tryCatch_error (bind_error ?_)).trans rfl
      rw [makeDirs, if_neg hdir, osCall, hfails hdir]

theorem forItems_refused (items : List RenameHistory) (d : Disk β)
    (hfails : ∀ call < d.calls + refusals operations items, env.fails call = some "") :
    ∃ items', forItems (selected operations) (executeItem env exts) items d = .ok items'
      { d with calls := d.calls + refusals operations items } := by
  induction items generalizing d with
  | nil => exact ⟨[], rfl⟩
  | cons item rest ih =>
      rw [refusals, List.countP_cons] at hfails
      have hturn : ∃ item' k, (if selected operations item then executeItem env exts item
          else pure item) d = .ok item' { d with calls := d.calls + k } ∧
          refusals operations (item :: rest) = k + refusals operations rest := by
        cases hsel : selected operations item with
        | false =>
            refine ⟨item, 0, rfl, ?_⟩
            rw [refusals, List.countP_cons, hsel, refusals]
            simp
        | true =>
            obtain ⟨item', hrun⟩ := @executeItem_refused _ env exts item d fun hdir =>
              hfails d.calls (by simp [hsel, hdir])
            refine ⟨item', _, hrun, ?_⟩
            rw [refusals, List.countP_cons, hsel, refusals, Bool.true_and, Nat.add_comm]
            simp
      obtain ⟨item', k, hrun, hk⟩ := hturn
      obtain ⟨rest', hrest⟩ := ih { d with calls := d.calls + k } fun call hcall => by
        refine hfails call ?_
        have hcount : refusals operations (item :: rest) = _ := List.countP_cons
        rw [← hcount, hk]
        simpa only [Nat.add_assoc] using hcall
      refine ⟨item' :: rest', forItems_cons_iff.mpr ⟨item', _, rest', hrun, ?_, rfl⟩⟩
      rw [hk, hrest, Nat.add_assoc]

/-- From the first call that is not refused on, a row's file is moved if it is there. -/
theorem executeItem_moves {item : RenameHistory} {file : β} {d : Disk β}
    (hdir : dirname (item.newPath.getD []) ≠ []) (hfails : ∀ call, d.calls ≤ call →
      env.fails call = none) (hfile : d.files.lookup item.originalPath = some file) :
    ⟨⟨item.id, .main⟩, item.originalPath, freePath d.files (item.newPath.getD []), file⟩ ∈
      (final (executeItem env exts item) d).log := by
  have hplanned : item.newPath.getD [] ≠ [] := fun h => hdir (by rw [h]; rfl)
  have hsrc : item.originalPath ∈ d.files := Finmap.mem_of_lookup_eq_some hfile
  have hne : item.originalPath ≠ freePath d.files (item.newPath.getD []) := by
    intro he
    rw [he] at hsrc
    exact freePath_notMem _ _ hsrc
  unfold executeItem
  simp only [if_neg hplanned]
  refine mem_log_tryCatch (fun _ d' => .refl d') ?_
  have hmake : makeDirs env (dirname (item.newPath.getD [])) d =
      .ok () { d with calls := d.calls + 1 } := by
    rw [makeDirs, if_neg hdir, osCall, hfails d.calls le_rfl]
  refine mem_log_after hmake ?_
  refine mem_log_after (rfl : (get : FileM β (Disk β)) _ = .ok _ _) ?_
  refine mem_log_bind (fun _ d₁ => ?_) ?_
  · refine leads_bind Disk.Extends.trans (.of_same rfl rfl) fun _ d₂ _ => ?_
    exact leads_bind Disk.Extends.trans (clock_leads env d₂) fun _ d₃ _ => .refl d₃
  · refine mem_log_bind (fun _ d₁ => moveRelated_leads rfl _ _ _ d₁) ?_
    have hmove : shutilMove env ⟨item.id, .main⟩ item.originalPath
        (freePath d.files (item.newPath.getD [])) { d with calls := d.calls + 1 } =
        .ok () (relocate ⟨item.id, .main⟩ item.originalPath
          (freePath d.files (item.newPath.getD [])) file { d with calls := d.calls + 2 }) := by
      have hcall : osCall env { d with calls := d.calls + 1 } =
          .ok () { d with calls := d.calls + 2 } := by
        rw [osCall, hfails _ (by simp)]
      rw [shutilMove]
      refine (bind_ok hcall).trans ((bind_ok rfl).trans ?_)
      simp only [hfile]
      rfl
    rw [final_ok hmove, relocate, if_neg hne]
    exact List.mem_append_right _ (List.mem_singleton_self _)

end SmartRenameService

/-- An open row with a slash in its new name is moved if only its own file is there and the
calls for the rows before it are refused. -/
theorem SmartRenameService.row_moved [Nonempty β] (exts : List Path) {batch : RenameBatch}
    {operations accepted : List Operation} {item : RenameHistory} {name : Path}
    (hopen : batch.status ∈ [BatchStatus.previewing, .pending])
    (hvalid : validateOperations cwd operations = .ok accepted) (hitem : item ∈ batch.items)
    (hstatus : item.status ∈ [ItemStatus.matched, .parsed, .needsConfirmation])
    (hname : overrideName accepted item.originalPath = some name) (hslash : '/' ∈ name) :
    ∃ (env : Env) (d : Disk β) (m : FileMap.Move MoveTag Path β), d.log = [] ∧
      m ∈ (final (smartExecute cwd env exts operations batch) d).log ∧ m.tag.item = item.id ∧
        dirname m.dst = dirname (join (dirname item.plannedPath) name) := by
  obtain ⟨hid, horiginal, hpath, hnow⟩ := override_spec hstatus hname
  have hops := operations_ne_nil hname
  obtain ⟨before, after, hitems⟩ := List.append_of_mem hitem
  obtain ⟨file⟩ := ‹Nonempty β›
  let row := override accepted item
  let rows := before.map (override accepted)
  let env := refusingEnv (1 + refusals accepted rows)
  let d : Disk β := { files := Finmap.singleton item.originalPath file }
  have hrows : overridden accepted batch.items =
      rows ++ row :: after.map (override accepted) := by
    rw [overridden, hops, if_neg Bool.false_ne_true, hitems, List.map_append]
    rfl
  obtain ⟨rows', hrefused⟩ := @forItems_refused _ env exts accepted rows
    { d with calls := 1 } fun call hcall => if_pos hcall
  have hsel : selected accepted row = true := by
    have hnamed : (overrideName accepted row.originalPath).isSome = true := by
      rw [horiginal, hname]
      rfl
    rw [selected, hops, hnamed, Bool.false_or, Bool.and_true]
    exact decide_eq_true hnow
  have hdir : dirname (row.newPath.getD []) ≠ [] := by
    rw [hpath]
    exact dirname_ne_nil (slash_mem_join _ hslash)
  have hfile : (Finmap.singleton item.originalPath file : FileMap Path β).lookup
      row.originalPath = some file := by
    rw [horiginal, Finmap.lookup_singleton_eq]
  have hturn := @executeItem_moves _ env exts row file
    { d with calls := 1 + refusals accepted rows } hdir
    (fun call hcall => if_neg (Nat.not_lt.mpr hcall)) hfile
  have hloop := mem_log_forItems (after.map (override accepted)) executeItem_leads hrefused hsel
    hturn
  refine ⟨env, d, ⟨⟨row.id, .main⟩, row.originalPath, freePath d.files (row.newPath.getD []),
    file⟩, rfl, ?_, hid, (dirname_freePath d.files (row.newPath.getD [])).trans ?_⟩
  · rw [smartExecute, hvalid]
    dsimp only
    rw [execute, if_pos hopen]
    refine mem_log_after (rfl : clock env d = .ok (env.now 0) { d with calls := 1 }) ?_
    refine mem_log_bind (fun _ d' => ?_) (hrows ▸ hloop)
    exact leads_bind Disk.Extends.trans (clock_leads env d') fun _ d₁ _ => .refl d₁
  · rw [hpath, Option.getD_some]

/-- Whatever the operating system does, a smart rename keeps every file of a row in the
directory of the row's planned path exactly if the accepted new names of the open rows
lead back to these directories. -/
theorem smart_rename_contained_iff [Nonempty β] (cwd : Path) {exts : List Path}
    (hexts : exts.Perm smartRelatedExtensions) {batch : RenameBatch}
    (hids : (batch.items.map (·.id)).Nodup) (operations : List Operation) :
    (∀ (env : Env) (d : Disk β), Leads (Logged (InPlannedDirectory cwd batch))
        (smartExecute cwd env exts operations batch) d) ↔
      (batch.status ∈ [BatchStatus.previewing, .pending] →
        ∀ accepted, validateOperations cwd operations = .ok accepted → ∀ item ∈ batch.items,
          item.status ∈ [ItemStatus.matched, .parsed, .needsConfirmation] → ∀ name,
            SmartRenameService.overrideName accepted item.originalPath = some name →
              LeadsBack cwd (dirname item.plannedPath) name) := by
  have hslash : ∀ ext ∈ exts, '/' ∉ ext := fun ext he =>
    (by decide : ∀ ext ∈ smartRelatedExtensions, '/' ∉ ext) ext (hexts.mem_iff.mp he)
  constructor
  · intro hall hopen accepted hvalid item hitem hstatus name hname
    by_cases hplain : '/' ∉ name
    · exact leadsBack_of_noSlash hplain
    · obtain ⟨env, d, m, hempty, hm, htag, hdst⟩ := @SmartRenameService.row_moved β cwd _ exts _
        _ _ _ _ hopen hvalid hitem hstatus hname (not_not.mp hplain)
      obtain ⟨moves, hlog, hmoves⟩ := hall env d
      rw [hlog, hempty, List.nil_append] at hm
      obtain ⟨item', hitem', htag', hplace⟩ := hmoves m hm
      obtain rfl : item' = item :=
        List.inj_on_of_nodup_map hids hitem' hitem (htag'.symm.trans htag)
      rw [directory, hdst] at hplace
      exact (directory_join _ _).symm.trans hplace
  · intro h env d
    rw [smartExecute]
    cases hvalid : validateOperations cwd operations with
    | error e => exact .refl d
    | ok accepted =>
        by_cases hopen : batch.status ∈ [BatchStatus.previewing, .pending]
        · exact SmartRenameService.execute_inPlannedDirectory hslash (h hopen accepted hvalid) d
        · dsimp only
          rw [SmartRenameService.execute, if_neg hopen]
          exact .refl d

/-- One row of a preview. -/
def previewOfFilm : RenameBatch where
  batchId := "batch"
  items := [
    { id := 1
      originalPath := "/in/a.mkv".toList
      newPath := some "/m/x.mkv".toList
      status := .matched }]
  totalItems := 1

def nameFilm (name : String) : List Operation :=
  [{ originalPath := some "/in/a.mkv".toList, newName := some name.toList }]

/-- A name without a slash, and one whose directory part leads back. -/
theorem film_contained :
    (∀ (env : Env) (d : Disk ℕ), Leads (Logged (InPlannedDirectory [] previewOfFilm))
      (smartExecute [] env smartRelatedExtensions (nameFilm "b.mkv") previewOfFilm) d) ∧
    ∀ (env : Env) (d : Disk ℕ), Leads (Logged (InPlannedDirectory [] previewOfFilm))
      (smartExecute [] env smartRelatedExtensions (nameFilm "../m/b.mkv") previewOfFilm) d := by
  have hleads : ∀ text ∈ ["b.mkv", "../m/b.mkv"],
      validateOperations [] (nameFilm text) = .ok (nameFilm text) ∧
        ∀ item ∈ previewOfFilm.items,
          SmartRenameService.overrideName (nameFilm text) item.originalPath = some text.toList ∧
            LeadsBack [] (dirname item.plannedPath) text.toList := by
    decide +kernel
  have hnames : ∀ text ∈ ["b.mkv", "../m/b.mkv"], ∀ accepted,
      validateOperations [] (nameFilm text) = .ok accepted → ∀ item ∈ previewOfFilm.items,
        item.status ∈ [ItemStatus.matched, .parsed, .needsConfirmation] → ∀ name,
          SmartRenameService.overrideName accepted item.originalPath = some name →
            LeadsBack [] (dirname item.plannedPath) name := by
    intro text htext accepted hvalid item hitem _ name hname
    obtain ⟨hok, hback⟩ := hleads text htext
    obtain rfl : nameFilm text = accepted := Except.ok.inj (hok.symm.trans hvalid)
    obtain rfl : text.toList = name := Option.some.inj ((hback item hitem).1.symm.trans hname)
    exact (hback item hitem).2
  exact ⟨(smart_rename_contained_iff [] (.refl _) (by decide) _).mpr fun _ =>
      hnames _ (List.mem_cons_self),
    (smart_rename_contained_iff [] (.refl _) (by decide) _).mpr fun _ =>
      hnames _ (List.mem_cons_of_mem _ List.mem_cons_self)⟩

/-- A name that climbs out is accepted, and takes the film and its subtitles along. -/
theorem film_leaves :
    let d : Disk ℕ :=
      { files := [⟨"/in/a.mkv".toList, 1⟩, ⟨"/in/a.srt".toList, 2⟩].toFinmap }
    let request := smartExecute [] smoothEnv smartRelatedExtensions (nameFilm "../etc/b.mkv")
      previewOfFilm
    (final request d).log.map (fun m => (m.dst, directory [] m.dst)) =
        [("/m/../etc/b.mkv".toList, ["etc".toList]), ("/m/../etc/b.srt".toList, ["etc".toList])] ∧
      ¬ Leads (Logged (InPlannedDirectory [] previewOfFilm)) request d := by
  intro d request
  have hlog : (final request d).log.map (fun m => (m.dst, directory [] m.dst)) =
      [("/m/../etc/b.mkv".toList, ["etc".toList]), ("/m/../etc/b.srt".toList, ["etc".toList])] := by
    decide +kernel
  refine ⟨hlog, fun h => ?_⟩
  obtain ⟨moves, hmoves, hplaced⟩ := h
  obtain ⟨m, hm, hdirectory⟩ : ∃ m ∈ (final request d).log, directory [] m.dst = ["etc".toList] := by
    have hfirst : ("/m/../etc/b.mkv".toList, ["etc".toList]) ∈
        (final request d).log.map (fun m => (m.dst, directory [] m.dst)) := by
      rw [hlog]
      exact List.mem_cons_self
    obtain ⟨m, hm, he⟩ := List.mem_map.mp hfirst
    exact ⟨m, hm, congrArg Prod.snd he⟩
  rw [hmoves] at hm
  obtain ⟨item, hitem, -, hplace⟩ := hplaced m hm
  have hplanned : ∀ item ∈ previewOfFilm.items,
      directory [] item.plannedPath = ["m".toList] := by decide
  rw [hdirectory, hplanned item hitem] at hplace
  exact absurd hplace (by decide)

end SmartMedia.Media
