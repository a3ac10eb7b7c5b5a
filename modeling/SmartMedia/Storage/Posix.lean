import Mathlib.Data.Char
import Mathlib.Data.Finset.Sort
import Mathlib.Data.List.Lex
import SmartMedia.Library.FileTree
import SmartMedia.Library.StateProgram
import SmartMedia.Media.StrmGenerator

/-!
# System calls on a tree of files

What local storage uses of `os`, `shutil` and `pathlib`, on one file system. A call is refused
only for what the tree looks like. The order of a directory's entries and the limits of links
and of Python's recursion are those of the system.
-/
namespace SmartMedia.Storage
open Media

variable {β : Type}

/-- The target of a link is the text of a path. -/
abbrev Tree (β : Type) := FileTree FileName Path β

theorem bare_root : (FileTree.bare : Tree ℕ).lookup [] = some .dir := rfl

structure System (β : Type) where
  scandir : Tree β → List FileName → List FileName
  mem_scandir : ∀ t p n, n ∈ scandir t p ↔ t.lookup (p ++ [n]) ≠ none
  nodup_scandir : ∀ t p, (scandir t p).Nodup
  symlinkLimit : ℕ
  recursionLimit : ℕ

/-- The exceptions that are told apart. -/
inductive Failure
  | fileExists
  | osError
  | raised
  deriving DecidableEq, Repr

abbrev FileM (β : Type) := EStateM Failure (Tree β)

section Paths

inductive Part
  | up
  | name (n : FileName)
  deriving DecidableEq, Repr

/-- A segment of a path; empty ones and `.` are none. -/
def part? (segment : Path) : Option Part :=
  if h : segment ≠ [] ∧ '/' ∉ segment ∧ segment ≠ ['.'] ∧ segment ≠ ['.', '.'] then
    some (.name ⟨segment, h.1, h.2.1, h.2.2.1, h.2.2.2⟩)
  else if segment = ['.', '.'] then some .up
  else none

/-- The parts of a `Path`. -/
def parts (text : Path) : List Part := (splitSlash text).filterMap part?

def names (p : List FileName) : List Part := p.map .name

/-- Where the target of a link in a directory begins. -/
def linkStart (dir : List FileName) (target : Path) : List FileName :=
  if target.head? = some '/' then [] else dir

/-- The way of the system along the parts of a path, up to a link. -/
def walkWith (t : Tree β) (onLink : List FileName → List Part → Option (List FileName)) :
    List FileName → List Part → Option (List FileName)
  | dir, [] => some dir
  | dir, part :: rest =>
      if t.lookup dir ≠ some .dir then none
      else
        match part with
        | .up => walkWith t onLink dir.dropLast rest
        | .name n =>
            match t.lookup (dir ++ [n]) with
            | none => none
            | some (.link target) => onLink (linkStart dir target) (parts target ++ rest)
            | some _ => walkWith t onLink (dir ++ [n]) rest

/-- With so many links at most. -/
def walk (t : Tree β) : ℕ → List FileName → List Part → Option (List FileName)
  | 0 => walkWith t fun _ _ => none
  | limit + 1 => walkWith t (walk t limit)

/-- `Path.resolve`, up to a link: what is not there is taken as it stands. -/
def realpathWith (t : Tree β)
    (onLink : List FileName → List Part → Except Failure (List FileName)) :
    List FileName → List Part → Except Failure (List FileName)
  | dir, [] => .ok dir
  | dir, .up :: rest => realpathWith t onLink dir.dropLast rest
  | dir, .name n :: rest =>
      -- `lstat` takes no null character
      if '\x00' ∈ n.chars then .error .raised
      else
        match t.lookup (dir ++ [n]) with
        | some (.link target) => do
            let found ← onLink (linkStart dir target) (parts target)
            realpathWith t onLink found rest
        | _ => realpathWith t onLink (dir ++ [n]) rest

/-- A chain of more links than the tree has is a loop. -/
def realpath (t : Tree β) : ℕ → List FileName → List Part → Except Failure (List FileName)
  | 0 => realpathWith t fun _ _ => .error .raised
  | limit + 1 => realpathWith t (realpath t limit)

end Paths

section Queries
variable (sys : System β) (t : Tree β)

/-- What `stat` finds. -/
def stat (p : List FileName) : Option (List FileName) := walk t sys.symlinkLimit [] (names p)

/-- The directory that has the last name of a path, and the name. -/
def entry (p : List FileName) : Option (List FileName × FileName) :=
  match p.getLast? with
  | none => none
  | some n =>
      (stat sys t p.dropLast).bind fun dir =>
        if t.lookup dir = some .dir then some (dir, n) else none

/-- What `lstat` finds. -/
def lstat (p : List FileName) : Option (Node Path β) :=
  (entry sys t p).bind fun (dir, n) => t.lookup (dir ++ [n])

/-- `os.path.exists`. -/
def pathExists (p : List FileName) : Bool := (stat sys t p).isSome

/-- `os.path.isdir`. -/
def isDir (p : List FileName) : Bool :=
  match (stat sys t p).bind t.lookup with
  | some .dir => true
  | _ => false

/-- `os.path.islink`. -/
def isLink (p : List FileName) : Bool :=
  match lstat sys t p with
  | some (.link _) => true
  | _ => false

/-- `os.path.samefile`; what is not there is not the same. -/
def sameFile (p q : List FileName) : Bool :=
  pathExists sys t p && stat sys t p = stat sys t q

/-- A path may replace what the directory has under the name: nothing, an empty directory by a
directory, or something else by what is no directory. -/
structure CanReplace (p parent : List FileName) (n : FileName) : Prop where
  dir : t.lookup parent = some .dir
  out : ¬ p <+: parent ++ [n]
  kind : t.lookup (parent ++ [n]) = none ∨
    (t.lookup p = some .dir ∧ t.lookup (parent ++ [n]) = some .dir ∧
      ∀ r ∈ t.keys, parent ++ [n] <+: r → r = parent ++ [n]) ∨
        t.lookup p ≠ some .dir ∧ t.lookup (parent ++ [n]) ≠ some .dir

instance (p parent : List FileName) (n : FileName) : Decidable (CanReplace t p parent n) :=
  decidable_of_iff (t.lookup parent = some .dir ∧ ¬ p <+: parent ++ [n] ∧
    (t.lookup (parent ++ [n]) = none ∨
      (t.lookup p = some .dir ∧ t.lookup (parent ++ [n]) = some .dir ∧
        ∀ r ∈ t.keys, parent ++ [n] <+: r → r = parent ++ [n]) ∨
          t.lookup p ≠ some .dir ∧ t.lookup (parent ++ [n]) ≠ some .dir))
    ⟨fun h => ⟨h.1, h.2.1, h.2.2⟩, fun h => ⟨h.dir, h.out, h.kind⟩⟩

end Queries

section Calls
variable (sys : System β)

/-- `os.rename`. -/
def osRename (src dst : List FileName) : FileM β Unit := do
  let t ← get
  match entry sys t src, entry sys t dst with
  | some (dir, n), some (parent, m) =>
      if t.lookup (dir ++ [n]) = none then throw .osError
      else if dir ++ [n] = parent ++ [m] then pure ()
      else if h : CanReplace t (dir ++ [n]) parent m then
        set (t.rename (dir ++ [n]) parent m h.dir h.out)
      else throw .osError
  | _, _ => throw .osError

/-- Something new at a path. -/
def create (x : Node Path β) (p : List FileName) : FileM β Unit := do
  let t ← get
  match entry sys t p with
  | none => throw (if p = [] then .fileExists else .osError)
  | some (dir, n) =>
      if h : t.lookup dir = some .dir ∧ t.lookup (dir ++ [n]) = none then
        set (t.insert dir n x h.1 (h.2 ▸ Option.some_ne_none _ |>.symm))
      else throw .fileExists

/-- `os.mkdir`. -/
def mkdir (p : List FileName) : FileM β Unit := create sys .dir p

/-- `os.symlink`. -/
def symlink (target : Path) (p : List FileName) : FileM β Unit := create sys (.link target) p

/-- `mkdir` in `os.makedirs`. -/
def mkdirUnlessDir (existOk : Bool) (p : List FileName) : FileM β Unit :=
  tryCatch (mkdir sys p) fun e => do
    let t ← get
    if existOk = true ∧ isDir sys t p = true then pure () else throw e

/-- `os.makedirs`, with the names of the path from the last one on. -/
def makedirsUp (existOk : Bool) : List FileName → FileM β Unit
  | [] => mkdirUnlessDir sys existOk []
  | n :: above => do
      let t ← get
      if pathExists sys t above.reverse = false then
        tryCatch (makedirsUp existOk above) fun e =>
          if e = .fileExists then pure () else throw e
      mkdirUnlessDir sys existOk (above.reverse ++ [n])

def makedirs (existOk : Bool) (p : List FileName) : FileM β Unit :=
  makedirsUp sys existOk p.reverse

/-- `open(path, "wb")` and `write`; a link to nothing is refused. -/
def writeFile (content : β) (p : List FileName) : FileM β Unit := do
  let t ← get
  match stat sys t p with
  | none => create sys (.file content) p
  | some found =>
      match entry sys t found with
      | none => throw .osError
      | some (dir, n) =>
          if h : t.lookup dir = some .dir ∧ t.lookup (dir ++ [n]) ≠ some .dir then
            set (t.insert dir n (.file content) h.1 h.2)
          else throw .osError

/-- `os.unlink`. -/
def unlink (p : List FileName) : FileM β Unit := do
  let t ← get
  match entry sys t p with
  | none => throw .osError
  | some (dir, n) =>
      if t.lookup (dir ++ [n]) = none ∨ t.lookup (dir ++ [n]) = some .dir then throw .osError
      else set (t.remove (dir ++ [n]) (List.append_ne_nil_of_right_ne_nil _ (List.cons_ne_nil n [])))

/-- `shutil.rmtree`; the root is emptied before it is refused. -/
def rmtree (p : List FileName) : FileM β Unit := do
  let t ← get
  match entry sys t p with
  | none =>
      if p = [] then set (FileTree.bare : Tree β)
      throw .osError
  | some (dir, n) =>
      if t.lookup (dir ++ [n]) = some .dir then
        set (t.remove (dir ++ [n]) (List.append_ne_nil_of_right_ne_nil _ (List.cons_ne_nil n [])))
      else throw .osError

/-- `shutil.copy2`. -/
def copy2 (src dst : List FileName) : FileM β Unit := do
  let t ← get
  match (stat sys t src).bind t.lookup with
  | some (.file content) =>
      writeFile sys content (if isDir sys t dst then dst ++ src.getLast?.toList else dst)
  | _ => throw .osError

section CopyTree
variable (recurse : List FileName → List FileName → FileM β Unit) (src dst : List FileName)

/-- One entry of `_copytree`. -/
def copyEntry (n : FileName) : FileM β Unit := do
  let t ← get
  match t.lookup (src ++ [n]) with
  | none => throw .osError
  | some .dir => recurse (src ++ [n]) (dst ++ [n])
  | some (.file _) => copy2 sys (src ++ [n]) (dst ++ [n])
  | some (.link target) => symlink sys target (dst ++ [n])

/-- The loop of `_copytree`; it goes on after an `OSError` and tells whether there was one. -/
def copyEntries : List FileName → FileM β Bool
  | [] => pure true
  | n :: rest => do
      let copied ← tryCatch (do copyEntry sys recurse src dst n; pure true) fun e =>
        if e = .raised then throw e else pure false
      let others ← copyEntries rest
      pure (copied && others)

end CopyTree

/-- `shutil.copytree` with `symlinks=True`. What it creates does not change where its paths
lead, so they are looked up once. -/
def copytree : ℕ → List FileName → List FileName → FileM β Unit
  | 0, _, _ => throw .raised
  | limit + 1, src, dst => do
      let t ← get
      match stat sys t src with
      | none => throw .osError
      | some source =>
          if t.lookup source ≠ some .dir then throw .osError
          makedirs sys false dst
          let t' ← get
          let copied ← copyEntries sys (copytree limit) source ((stat sys t' dst).getD dst)
            (sys.scandir t source)
          if copied = true then pure () else throw .osError

/-- The end of `shutil.move`: a rename, or else a copy. -/
def moveTo (src dst realDst : List FileName) : FileM β Unit :=
  tryCatch (osRename sys src realDst) fun _ => do
    let t ← get
    match lstat sys t src with
    | some (.link target) => do
        symlink sys target realDst
        unlink sys src
    | _ =>
        if isDir sys t src = true then do
          -- `_destinsrc`
          if src <+: dst then throw .osError
          copytree sys sys.recursionLimit src realDst
          rmtree sys src
        else do
          copy2 sys src realDst
          unlink sys src

/-- `shutil.move`. -/
def shutilMove (src dst : List FileName) : FileM β Unit := do
  let t ← get
  if isDir sys t dst = true then
    if sameFile sys t src dst = true ∧ isLink sys t src = false then osRename sys src dst
    else
      match src.getLast? with
      | none => throw .osError
      | some n =>
          if pathExists sys t (dst ++ [n]) = true then throw .osError
          else moveTo sys src dst (dst ++ [n])
  else moveTo sys src dst dst

end Calls

section Sorted

/-- Names in the order of their characters. -/
instance : LinearOrder FileName := LinearOrder.lift' FileName.chars fun _ _ => FileName.ext

/-- The names in a directory. -/
def children (t : Tree β) (p : List FileName) : Finset FileName :=
  t.keys.biUnion fun r =>
    match r.getLast? with
    | none => ∅
    | some n => if r.dropLast = p then {n} else ∅

theorem mem_children (t : Tree β) (p : List FileName) (n : FileName) :
    n ∈ children t p ↔ t.lookup (p ++ [n]) ≠ none := by
  rw [children, Finset.mem_biUnion, ← t.mem_keys]
  constructor
  · rintro ⟨r, hr, hn⟩
    rcases List.eq_nil_or_concat' r with rfl | ⟨above, m, rfl⟩
    · simp at hn
    · rw [List.getLast?_concat, List.dropLast_concat] at hn
      simp only at hn
      split_ifs at hn with habove
      · rw [Finset.mem_singleton] at hn
        rwa [← habove, hn]
      · simp at hn
  · intro hn
    refine ⟨p ++ [n], hn, ?_⟩
    rw [List.getLast?_concat, List.dropLast_concat]
    simp

/-- A system that sorts the entries of a directory. -/
def System.sorted (symlinkLimit recursionLimit : ℕ) : System β where
  scandir t p := (children t p).sort
  mem_scandir t p n := by rw [Finset.mem_sort, mem_children]
  nodup_scandir t p := Finset.sort_nodup _ _
  symlinkLimit := symlinkLimit
  recursionLimit := recursionLimit

end Sorted

end SmartMedia.Storage
