import SmartMedia.Storage.CheckedPaths

/-!
# Calls that may raise

The calls of `os` and `shutil` on the texts of paths, and the safe operations of
`app/core/path_security.py`. A call may raise although the tree allows it; one of several steps may
raise after some of them.
-/
namespace SmartMedia.Storage
open Media PosixPath StateProgram

variable {β : Type}

section Texts
variable (sys : System β) (t : Tree β) (cwd : List FileName)

/-- Whether a text ends with a slash or a dot, and so has to lead to a directory. -/
def asksForDirectory (text : Path) : Bool :=
  match (splitSlash text).getLast? with
  | some segment => segment = [] || segment = ['.']
  | none => false

/-- What `stat` finds at a text. -/
def statText (text : Path) : Option (List FileName) :=
  if text = [] then none
  else
    (walk t sys.symlinkLimit (linkStart cwd text) (parts text)).filter fun p =>
      !asksForDirectory text || t.lookup p = some .dir

/-- The directory that has the last name of a text, and the name. -/
def entryText (text : Path) : Option (List FileName × FileName) :=
  match (splitSlash text).getLast?.bind part? with
  | some (.name n) =>
      (walk t sys.symlinkLimit (linkStart cwd text) (parts text).dropLast).bind fun dir =>
        if t.lookup dir = some .dir then some (dir, n) else none
  | _ => none

def existsText (text : Path) : Bool := (statText sys t cwd text).isSome

def isDirText (text : Path) : Bool :=
  match (statText sys t cwd text).bind t.lookup with
  | some .dir => true
  | _ => false

/-- The names of an absolute path in its normal form. -/
def pathNames (text : Path) : List FileName :=
  (parts text).filterMap fun part =>
    match part with
    | .name n => some n
    | .up => none

end Texts

section Calls
variable (sys : System β) (cwd : List FileName)

/-- `os.remove` -/
def unlinkText (text : Path) : FileM β Unit := do
  let t ← get
  match entryText sys t cwd text with
  | some (dir, n) => unlink sys (dir ++ [n])
  | none => throw .osError

/-- `open(path, "wb")` and `write`; a link to nothing is refused. -/
def writeText (content : β) (text : Path) : FileM β Unit := do
  let t ← get
  match statText sys t cwd text with
  | some found => writeFile sys content found
  | none =>
      match entryText sys t cwd text with
      | some (dir, n) => create sys (.file content) (dir ++ [n])
      | none => throw .osError

/-- `os.link`, where a link is a file with the same content. The answer is `false` where the two
paths are on different devices. -/
def linkFile (crossDevice : List FileName → List FileName → Bool) (src dst : List FileName) :
    FileM β Bool := do
  let t ← get
  match (stat sys t src).bind t.lookup with
  | some (.file content) =>
      if crossDevice src dst = true ∧ lstat sys t dst = none ∧ (entry sys t dst).isSome = true then
        pure false
      else do
        create sys (.file content) dst
        pure true
  | _ => throw .osError

end Calls

section Os

/-- Directories are new, and nothing else. -/
def MoreDirs (t t' : Tree β) : Prop :=
  ∀ p, t'.lookup p = t.lookup p ∨ t.lookup p = none ∧ t'.lookup p = some .dir

/-- A call does what it does, or raises and leaves one of some trees. -/
def MayRaise {α : Type} (left : Tree β → Tree β → Prop) (call real : FileM β α) : Prop :=
  ∀ t, call t = real t ∨ ∃ e t', call t = .error e t' ∧ left t t'

/-- The calls that change the tree, which may raise at any time. -/
structure Os (sys : System β) (cwd : List FileName) where
  crossDevice : List FileName → List FileName → Bool
  /-- The text of an exception. -/
  describe : Failure → Path
  makedirs : List FileName → FileM β Unit
  remove : Path → FileM β Unit
  rename : List FileName → List FileName → FileM β Unit
  link : List FileName → List FileName → FileM β Bool
  symlink : Path → List FileName → FileM β Unit
  write : β → Path → FileM β Unit
  makedirs_may : ∀ p, MayRaise MoreDirs (makedirs p) (Storage.makedirs sys true p)
  remove_may : ∀ text, MayRaise (fun t t' => t' = t) (remove text) (unlinkText sys cwd text)
  rename_may : ∀ src dst, MayRaise (fun t t' => t' = t) (rename src dst) (osRename sys src dst)
  link_may : ∀ src dst, MayRaise (fun t t' => t' = t) (link src dst) (linkFile sys crossDevice src dst)
  symlink_may : ∀ target p,
    MayRaise (fun t t' => t' = t) (symlink target p) (Storage.symlink sys target p)
  /-- A part of the content may be written. -/
  write_may : ∀ content text,
    MayRaise (fun t t' => t' = t ∨ ∃ part, writeText sys cwd part text t = .ok () t')
      (write content text) (writeText sys cwd content text)

theorem MayRaise.refl {α : Type} (left : Tree β → Tree β → Prop) (call : FileM β α) :
    MayRaise left call call := fun _ => .inl rfl

/-- Nothing is raised without a reason in the tree. -/
def Os.reliable (sys : System β) (cwd : List FileName) : Os sys cwd where
  crossDevice _ _ := false
  describe _ := []
  makedirs := Storage.makedirs sys true
  remove := unlinkText sys cwd
  rename := osRename sys
  link := linkFile sys fun _ _ => false
  symlink := Storage.symlink sys
  write := writeText sys cwd
  makedirs_may _ := .refl _ _
  remove_may _ := .refl _ _
  rename_may _ _ := .refl _ _
  link_may _ _ := .refl _ _
  symlink_may _ _ := .refl _ _
  write_may _ _ := .refl _ _

/-- Directories are made and files removed, but nothing else succeeds. -/
def Os.refusing (sys : System β) (cwd : List FileName) : Os sys cwd where
  crossDevice _ _ := false
  describe _ := []
  makedirs := Storage.makedirs sys true
  remove := unlinkText sys cwd
  rename _ _ := throw .osError
  link _ _ := throw .osError
  symlink _ _ := throw .osError
  write _ _ := throw .osError
  makedirs_may _ := .refl _ _
  remove_may _ := .refl _ _
  rename_may _ _ t := .inr ⟨_, t, rfl, rfl⟩
  link_may _ _ t := .inr ⟨_, t, rfl, rfl⟩
  symlink_may _ _ t := .inr ⟨_, t, rfl, rfl⟩
  write_may _ _ t := .inr ⟨_, t, rfl, .inl rfl⟩

end Os

section Safe
variable {sys : System β} (env : Surroundings) (os : Os sys env.cwd) (allowedDirs : Option (List Path))

inductive Raised where
  | security (e : PathSecurityError)
  | os (e : Failure)
  deriving DecidableEq, Repr

abbrev SafeM (β : Type) := EStateM Raised (Tree β)

def call {α : Type} (m : FileM β α) : SafeM β α := fun t =>
  match m t with
  | .ok a t' => .ok a t'
  | .error e t' => .error (.os e) t'

/-- A check that raises. -/
def checked (sys : System β) (filePath : Path) (checkExists allowSymlinks : Bool) :
    SafeM β (List FileName) := fun t =>
  match validateFilePath sys t env filePath allowedDirs checkExists allowSymlinks with
  | .ok realPath => .ok realPath t
  | .error e => .error (.security e) t

namespace Os

/-- The directory of a path is made if it is not there. -/
def ensureDir (dir : List FileName) : SafeM β Unit := do
  let t ← get
  if pathExists sys t dir = false then call (os.makedirs dir)

/-- `safe_makedirs` -/
def safeMakedirs (path : Path) : SafeM β Unit := do
  let absPath := abspath (pathText env.cwd) path
  let parentDir := if dirname absPath = [] then absPath else dirname absPath
  let t ← get
  if isDirText sys t env.cwd absPath = true then
    let _ ← checked env allowedDirs sys absPath false false
  else
    let _ ← checked env allowedDirs sys parentDir false false
    call (os.makedirs (pathNames absPath))

/-- `safe_rename` -/
def safeRename (src dst : Path) : SafeM β Unit := do
  let srcValidated ← checked env allowedDirs sys src true false
  let dstValidated ← checked env allowedDirs sys dst false false
  os.ensureDir env dstValidated.dropLast
  call (os.rename srcValidated dstValidated)

/-- `safe_symlink` -/
def safeSymlink (src dst : Path) : SafeM β Unit := do
  let srcValidated ← checked env allowedDirs sys src true true
  let dstValidated ← checked env allowedDirs sys dst false false
  os.ensureDir env dstValidated.dropLast
  call (os.symlink (pathText srcValidated) dstValidated)

/-- `shutil.copy2` -/
def copy2 (src dst : Path) : SafeM β Unit := do
  let t ← get
  let target := if isDirText sys t env.cwd dst = true then join dst (basename src) else dst
  if existsText sys t env.cwd src = true ∧
      statText sys t env.cwd src = statText sys t env.cwd target then
    throw (.os .osError)
  match (statText sys t env.cwd src).bind t.lookup with
  | some (.file content) => call (os.write content target)
  | _ => throw (.os .osError)

/-- `safe_hardlink` -/
def safeHardlink (src dst : Path) : SafeM β Unit := do
  let srcValidated ← checked env allowedDirs sys src true false
  let dstValidated ← checked env allowedDirs sys dst false false
  os.ensureDir env dstValidated.dropLast
  let linked ← call (os.link srcValidated dstValidated)
  if linked = false then os.copy2 env (pathText srcValidated) (pathText dstValidated)

end Os

end Safe

end SmartMedia.Storage
