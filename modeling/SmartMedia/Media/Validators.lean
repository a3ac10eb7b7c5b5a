import SmartMedia.Media.Rename
import SmartMedia.Media.StrmGenerator

/-!
# Validating paths

`validate_path` of `app/core/validators.py` with the part of `posixpath` it uses. A
request for a smart rename passes it with the original paths; of a new name it is only
asked that something is left of it after `strip`.
-/
namespace SmartMedia.Media

/-- `"/".join`. -/
def joinSlash (parts : List Path) : Path := List.intercalate ['/'] parts

namespace PosixPath

def isabs (p : Path) : Bool := p.head? = some '/'

/-- The loop of `normpath` over the components; `rooted` is `initial_slashes`. -/
def collapse (rooted : Bool) (parts : List Path) : List Path :=
  parts.foldl (fun acc part =>
    if part = [] ∨ part = ['.'] then acc
    else if part ≠ ['.', '.'] ∨ (rooted = false ∧ acc = []) ∨ acc.getLast? = some ['.', '.'] then
      acc ++ [part]
    else acc.dropLast) []

/-- Two leading slashes are kept, three or more become one. -/
def initialSlashes (p : Path) : ℕ :=
  if isabs p then
    if "//".toList <+: p ∧ ¬ "///".toList <+: p then 2 else 1
  else 0

def normpath (p : Path) : Path :=
  let slashes := initialSlashes p
  let path := List.replicate slashes '/' ++ joinSlash (collapse (slashes ≠ 0) (splitSlash p))
  if path = [] then ['.'] else path

def abspath (cwd p : Path) : Path := normpath (if isabs p then p else join cwd p)

end PosixPath

def maxPathLength : ℕ := 512

/-- `_CONTROL_CHAR_PATTERN`. -/
def isControl (c : Char) : Bool := c.toNat ≤ 0x1f || c.toNat = 0x7f

/-- `_validate_basic_string`. -/
def validateBasicString (value : Option Path) (fieldName : String) (maxLength : ℕ) :
    Except String Path :=
  match value with
  | none => .error (fieldName ++ " is required")
  | some value =>
      let v := strip value
      if v = [] then .error (fieldName ++ " is required")
      else if maxLength < v.length then
        .error (fieldName ++ " length must be <= " ++ toString maxLength)
      else if v.any isControl then .error (fieldName ++ " contains invalid characters")
      else .ok v

/-- `abs_path.startswith(abs_base + os.sep) or abs_path == abs_base`. -/
def isWithin (absPath absBase : Path) : Bool :=
  (absBase ++ ['/']).isPrefixOf absPath || absPath = absBase

/-- `validate_path`; `cwd` is the working directory. -/
def validatePath (cwd : Path) (value : Option Path) (fieldName : String := "path")
    (maxLength : ℕ := maxPathLength) (baseDir : Option Path := none)
    (allowedDirs : Option (List Path) := none) (allowAbsolute : Bool := false) :
    Except String Path := do
  let v ← validateBasicString value fieldName maxLength
  let parts := splitSlash ((PosixPath.normpath v).map fun c => if c = '\\' then '/' else c)
  if ['.', '.'] ∈ parts then
    throw (fieldName ++ " contains invalid path traversal sequence")
  if PosixPath.isabs v ∧ allowedDirs = none ∧ baseDir = none ∧ allowAbsolute = false then
    throw (fieldName ++ " must be a relative path")
  if v.any (·.toNat = 0) then throw (fieldName ++ " contains null bytes")
  if let some base := baseDir then
    if isWithin (PosixPath.abspath cwd (join base v)) (PosixPath.abspath cwd base) = false then
      throw (fieldName ++ " is outside of allowed base directory")
  if let some dirs := allowedDirs then
    if (dirs.any fun dir =>
        isWithin (PosixPath.abspath cwd v) (PosixPath.abspath cwd dir)) = false then
      throw (fieldName ++ " is not in allowed directories")
  return v

/-- The body of the loop in `validate_operations`. -/
def validateOperation (cwd : Path) (op : Operation) : Except String Operation := do
  let originalPath ← validatePath cwd (some (op.originalPath.getD [])) "original_path"
    maxPathLength none none true
  let newName := strip (op.newName.getD [])
  if newName = [] then throw "new_name is required"
  return { originalPath := some originalPath, newName := some newName }

/-- `validate_operations`, on a list. -/
def validateOperations (cwd : Path) (operations : List Operation) :
    Except String (List Operation) :=
  operations.mapM (validateOperation cwd)

def maxIdLength : ℕ := 128

/-- `_ID_PATTERN`; its `$` also matches before a line feed at the end. -/
def matchesIdPattern (v : Path) : Bool :=
  let body := if v.getLast? = some '\n' then v.dropLast else v
  body ≠ [] && body.all fun c =>
    ('A' ≤ c && c ≤ 'Z') || ('a' ≤ c && c ≤ 'z') || ('0' ≤ c && c ≤ '9') ||
      c ∈ ['_', '.', ':', '-']

def validateIdentifier (value : Option Path) (fieldName : String := "id")
    (maxLength : ℕ := maxIdLength) : Except String Path := do
  let v ← validateBasicString value fieldName maxLength
  if matchesIdPattern v = false then throw (fieldName ++ " has invalid format")
  return v

example : PosixPath.normpath "//a/./b/../c/".toList = "//a/c".toList := by decide

end SmartMedia.Media
