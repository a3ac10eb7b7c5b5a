import SmartMedia.Library.StateProgram
import SmartMedia.Media.Paths

/-!
# Moving a file together with its related files

`shutil.move` on a map from paths to contents, with the operating system deciding
which call fails. Execute and rollback of both rename services contain the same
loop: the main file first, then every existing file with the old base and a related
extension. Directories are not modelled; whether one exists or can be made is part
of the operating system's answers. Contents are of any type, so a proof may take
them as the identities of files.
-/
namespace SmartMedia.Media

abbrev Time := ℕ

/-- What the surroundings answer to the n-th call, and the texts of missing files. -/
structure Env where
  fails : ℕ → Option String
  missing : Path → String
  now : ℕ → Time

/-- `RELATED_EXTENSIONS` of `files.py`; `rename.py` runs through it in set order. -/
def relatedExtensions : List Path :=
  [".nfo".toList, ".jpg".toList, ".png".toList, ".srt".toList, ".ass".toList, ".sub".toList,
    ".idx".toList, ".sup".toList]

/-- The set literal in `smart_rename.py`. -/
def smartRelatedExtensions : List Path :=
  [".nfo".toList, ".jpg".toList, ".png".toList, ".srt".toList, ".ass".toList, ".sub".toList]

inductive MoveKind where
  | main | related
  deriving DecidableEq, Repr

/-- For which history row a file was moved, and in which role. -/
structure MoveTag where
  item : ℕ
  kind : MoveKind
  deriving DecidableEq, Repr

/-- The files, the number of calls made so far, and two history variables no step
reads: the moves performed (a move of a path onto itself is none), and for the renamed
rows the files that stood at their targets. -/
structure Disk (β : Type) where
  files : FileMap Path β
  calls : ℕ := 0
  log : List (FileMap.Move MoveTag Path β) := []
  found : List (ℕ × β) := []

abbrev FileM (β : Type) := EStateM String (Disk β)

variable {β : Type}

def osCall (env : Env) : FileM β Unit := fun d =>
  match env.fails d.calls with
  | none => .ok () { d with calls := d.calls + 1 }
  | some e => .error e { d with calls := d.calls + 1 }

/-- `datetime.now()`. -/
def clock (env : Env) : FileM β Time := fun d =>
  .ok (env.now d.calls) { d with calls := d.calls + 1 }

/-- `os.path.exists`. -/
def pathExists (p : Path) : FileM β Bool := fun d => .ok (d.files.lookup p).isSome d

/-- `if not os.path.exists(dir): os.makedirs(dir, exist_ok=True)`; the empty name is
never a directory. -/
def makeDirs (env : Env) (dir : Path) : FileM β Unit :=
  if dir = [] then throw (env.missing []) else osCall env

/-- The file is taken from `src` and overwrites what is at `dst`. -/
def relocate (tag : MoveTag) (src dst : Path) (file : β) (d : Disk β) : Disk β :=
  { d with
    files := (d.files.erase src).insert dst file
    log := if src = dst then d.log else d.log ++ [⟨tag, src, dst, file⟩] }

/-- `shutil.move`. -/
def shutilMove (env : Env) (tag : MoveTag) (src dst : Path) : FileM β Unit := do
  osCall env
  let d ← get
  match d.files.lookup src with
  | none => throw (env.missing src)
  | some file => set (relocate tag src dst file d)

/-- The loop over the related extensions. -/
def moveRelated (env : Env) (tag : MoveTag) (oldBase newBase : Path) : List Path → FileM β Unit
  | [] => pure ()
  | ext :: exts => do
      if ← pathExists (oldBase ++ ext) then
        shutilMove env tag (oldBase ++ ext) (newBase ++ ext)
      moveRelated env tag oldBase newBase exts

/-- The main file and then its related files. -/
def moveWithRelated (env : Env) (exts : List Path) (item : ℕ) (src dst : Path) :
    FileM β Unit := do
  shutilMove env ⟨item, .main⟩ src dst
  moveRelated env ⟨item, .related⟩ (splitext src).1 (splitext dst).1 exts

def noteFound (item : ℕ) (file : Option β) : FileM β Unit := fun d =>
  .ok () { d with found := file.toList.map (Prod.mk item) ++ d.found }

/-- Later than `d`: the files come from the logged moves, each of which moved the file
it found, and no main file was moved onto another file. -/
def Disk.Extends (d d' : Disk β) : Prop :=
  ∃ ms, d'.log = d.log ++ ms ∧ PartialRun.exec FileMap.step d.files ms = some d'.files ∧
    PartialRun.Along FileMap.step
      (fun fs m => fs.lookup m.src = some m.file ∧ (m.tag.kind = .main → m.dst ∉ fs)) d.files ms

theorem Disk.Extends.of_same {d d' : Disk β} (hf : d'.files = d.files) (hl : d'.log = d.log) :
    d.Extends d' :=
  ⟨[], by rw [hl, List.append_nil], by rw [hf]; rfl, trivial⟩

theorem Disk.Extends.refl (d : Disk β) : d.Extends d := .of_same rfl rfl

theorem Disk.Extends.trans (d d' d'' : Disk β) (h : d.Extends d') (h' : d'.Extends d'') :
    d.Extends d'' := by
  obtain ⟨ms, hlog, hexec, halong⟩ := h
  obtain ⟨ms', hlog', hexec', halong'⟩ := h'
  refine ⟨ms ++ ms', by rw [hlog', hlog, List.append_assoc], ?_, ?_⟩
  · exact PartialRun.exec_append_eq_some.mpr ⟨_, hexec, hexec'⟩
  · refine PartialRun.along_append.mpr ⟨halong, fun u hu => ?_⟩
    rw [hexec] at hu
    cases hu
    exact halong'

section Programs
variable {env : Env} {tag : MoveTag} {src dst : Path} {d d' : Disk β} {exts : List Path}
variable {item : ℕ}

/-- An operating system call answers, and changes nothing else. -/
theorem osCall_cases (env : Env) (d : Disk β) :
    osCall env d = .ok () { d with calls := d.calls + 1 } ∨
      ∃ e, osCall env d = .error e { d with calls := d.calls + 1 } := by
  unfold osCall
  cases env.fails d.calls with
  | none => exact .inl rfl
  | some e => exact .inr ⟨e, rfl⟩

theorem osCall_none (h : env.fails d.calls = none) :
    osCall env d = .ok () { d with calls := d.calls + 1 } := by rw [osCall, h]

theorem osCall_some {e : String} (h : env.fails d.calls = some e) :
    osCall env d = .error e { d with calls := d.calls + 1 } := by rw [osCall, h]

theorem osCall_leads (env : Env) (d : Disk β) : StateProgram.Leads Disk.Extends (osCall env) d := by
  rcases osCall_cases env d with h | ⟨e, h⟩
  · rw [StateProgram.Leads, StateProgram.final_ok h]
    exact .of_same rfl rfl
  · rw [StateProgram.Leads, StateProgram.final_error h]
    exact .of_same rfl rfl

theorem makeDirs_leads (env : Env) (dir : Path) (d : Disk β) :
    StateProgram.Leads Disk.Extends (makeDirs env dir) d := by
  unfold makeDirs
  split_ifs
  · exact .refl d
  · exact osCall_leads env d

/-- A performed move extends the disk, onto a free path if it is a main one. -/
theorem relocate_extends {file : β} (h : d.files.lookup src = some file)
    (hfree : tag.kind = .main → dst ∉ d.files) : d.Extends (relocate tag src dst file d) := by
  by_cases hsd : src = dst
  · subst hsd
    refine .of_same (FileMap.insert_erase h) ?_
    rw [relocate, if_pos rfl]
  · refine ⟨[⟨tag, src, dst, file⟩], ?_, ?_, ⟨h, hfree⟩, fun _ _ => trivial⟩
    · rw [relocate, if_neg hsd]
    · show (FileMap.move d.files src dst).bind _ = _
      rw [FileMap.move_eq_some.mpr ⟨file, h, rfl⟩]
      rfl

theorem shutilMove_moves {file : β} (tag : MoveTag) (dst : Path) (hc : env.fails d.calls = none)
    (h : d.files.lookup src = some file) :
    shutilMove env tag src dst d =
      .ok () (relocate tag src dst file { d with calls := d.calls + 1 }) := by
  have hread : (get : FileM β (Disk β)) { d with calls := d.calls + 1 } =
      .ok { d with calls := d.calls + 1 } { d with calls := d.calls + 1 } := rfl
  rw [shutilMove, StateProgram.bind_ok (osCall_none hc), StateProgram.bind_ok hread]
  simp only [h]
  rfl

theorem shutilMove_absent (tag : MoveTag) (dst : Path) (hc : env.fails d.calls = none)
    (h : d.files.lookup src = none) :
    shutilMove env tag src dst d = .error (env.missing src) { d with calls := d.calls + 1 } := by
  have hread : (get : FileM β (Disk β)) { d with calls := d.calls + 1 } =
      .ok { d with calls := d.calls + 1 } { d with calls := d.calls + 1 } := rfl
  rw [shutilMove, StateProgram.bind_ok (osCall_none hc), StateProgram.bind_ok hread]
  simp only [h]
  rfl

theorem shutilMove_leads (hfree : tag.kind = .main → dst ∉ d.files) :
    StateProgram.Leads Disk.Extends (shutilMove env tag src dst) d := by
  refine StateProgram.leads_bind Disk.Extends.trans (osCall_leads env d) fun _ d₁ h₁ => ?_
  have hfiles : d₁.files = d.files := by
    rcases osCall_cases env d with ho | ⟨e, ho⟩ <;> (rw [ho] at h₁; cases h₁)
    rfl
  refine StateProgram.leads_bind Disk.Extends.trans (.refl d₁) fun d₂ _ h₂ => ?_
  cases h₂
  cases hl : d₁.files.lookup src with
  | none => exact .refl d₁
  | some file => exact relocate_extends hl (hfiles ▸ hfree)

/-- Related files are moved one by one, wherever they land. -/
theorem moveRelated_leads (hkind : tag.kind = .related) (oldBase newBase : Path)
    (exts : List Path) (d : Disk β) :
    StateProgram.Leads Disk.Extends (moveRelated env tag oldBase newBase exts) d := by
  have hfree : ∀ {p : Prop}, tag.kind = .main → p := fun h => by
    rw [hkind] at h
    cases h
  induction exts generalizing d with
  | nil => exact .refl d
  | cons ext exts ih =>
      refine StateProgram.leads_bind Disk.Extends.trans (.refl d) fun b d₁ h₁ => ?_
      cases b with
      | false => exact ih d₁
      | true =>
          exact StateProgram.leads_bind Disk.Extends.trans (shutilMove_leads hfree)
            fun _ d₂ _ => ih d₂

theorem moveWithRelated_leads (hfree : dst ∉ d.files) :
    StateProgram.Leads Disk.Extends (moveWithRelated env exts item src dst) d :=
  StateProgram.leads_bind Disk.Extends.trans (shutilMove_leads fun _ => hfree) fun _ d₁ _ =>
    moveRelated_leads rfl _ _ _ d₁

end Programs

end SmartMedia.Media
