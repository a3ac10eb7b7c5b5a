import SmartMedia.Library.PythonText
import SmartMedia.Strm.StableUrl

/-!
# Media mappings

`app/services/media_mapping_service.py` on the table `media_mappings`. The calls are executed
one at a time; a call that raises leaves the table as it was. A query without an order may
return any of the rows found first, at each call another one.
-/
namespace SmartMedia.Mapping
open Media Strm PythonText

/-- The columns that the service reads or writes. -/
structure MediaMapping where
  mediaId : Text
  backendId : Text
  providerFileId : Option Text
  sourcePath : Text
  displayName : Text
  sourceExt : Text
  strmPath : Option Text
deriving DecidableEq, Repr

/-- The table; `media_id` is unique. -/
structure MediaMappings where
  rows : List MediaMapping
  unique : (rows.map (·.mediaId)).Nodup

/-- `.first()` of a query without an order. -/
structure RowChoice where
  first : List MediaMapping → Option MediaMapping
  mem : ∀ {rows : List MediaMapping} {r : MediaMapping}, first rows = some r → r ∈ rows
  eq_nil : ∀ {rows : List MediaMapping}, first rows = none → rows = []

section Names

def normalizeSourcePath (sourcePath : Option Text) : Text :=
  let raw := (strip (sourcePath.getD [])).map fun c => if c = '\\' then '/' else c
  if raw = [] then ['/']
  else
    let raw := if raw.head? = some '/' then raw else '/' :: raw
    if 1 < raw.length then rstripSlashes raw else raw

/-- `PurePosixPath(path).name`. -/
def pathName (path : Text) : Text := ((STRMGenerator.pathParts path).getLast?).getD []

/-- `PurePosixPath(path).suffix`. -/
def pathSuffix (path : Text) : Text :=
  let name := pathName path
  let extension := (name.reverse.takeWhile (· ≠ '.')).reverse
  if extension ≠ [] ∧ extension.length + 1 < name.length then '.' :: extension else []

def deriveDisplayName (sourcePath : Text) (providerFileId : Option Text) : Text :=
  let name := pathName sourcePath
  if name ≠ [] then name
  else (truthy (some (strip ((truthy providerFileId).getD "media".toList)))).getD "media".toList

def deriveSourceExt (displayName : Text) : Text := (pathSuffix displayName).dropWhile (· = '.')

end Names

namespace MediaMappings

def empty : MediaMappings := ⟨[], List.nodup_nil⟩

/-- The first row, if any: what a table scan returns. -/
def scan : RowChoice where
  first := List.head?
  mem := List.mem_of_mem_head?
  eq_nil := List.head?_eq_none_iff.mp

def getByMediaId (t : MediaMappings) (mediaId : Text) : Option MediaMapping :=
  t.rows.find? (·.mediaId = mediaId)

def ofFileId (t : MediaMappings) (backendId fileId : Text) : List MediaMapping :=
  t.rows.filter fun r => r.backendId = backendId ∧ r.providerFileId = some fileId

def ofPath (t : MediaMappings) (backendId sourcePath : Text) : List MediaMapping :=
  t.rows.filter fun r => r.backendId = backendId ∧ r.sourcePath = sourcePath

def findExistingMapping (t : MediaMappings) (choice : RowChoice) (backendId : Text)
    (providerFileId : Option Text) (sourcePath : Text) : Option MediaMapping :=
  ((truthy providerFileId).bind fun fileId => choice.first (t.ofFileId backendId fileId)).or
    (choice.first (t.ofPath backendId sourcePath))

/-- `db.add` and `db.commit`; `none` is the `IntegrityError`. -/
def insert (t : MediaMappings) (r : MediaMapping) : Option MediaMappings :=
  if h : r.mediaId ∈ t.rows.map (·.mediaId) then none
  else some ⟨t.rows ++ [r], by
    rw [List.map_append, List.nodup_append']
    exact ⟨t.unique, List.nodup_singleton _, List.disjoint_singleton.mpr h⟩⟩

/-- The other columns of the row `mediaId` are set. -/
def update (t : MediaMappings) (mediaId : Text) (f : MediaMapping → MediaMapping)
    (hf : ∀ r, (f r).mediaId = r.mediaId) : MediaMappings where
  rows := t.rows.map fun r => if r.mediaId = mediaId then f r else r
  unique := by
    have hids : (t.rows.map fun r => if r.mediaId = mediaId then f r else r).map (·.mediaId) =
        t.rows.map (·.mediaId) := by
      rw [List.map_map]
      refine List.map_congr_left fun r _ => ?_
      simp only [Function.comp_apply]
      split
      · exact hf r
      · rfl
    rw [hids]
    exact t.unique

end MediaMappings

/-- The arguments of `get_or_create`, and how the database answers its queries. -/
structure GetOrCreate where
  choice : RowChoice := MediaMappings.scan
  backendId : Text := "quark".toList
  providerFileId : Option Text
  sourcePath : Text
  strmPath : Option Text := none
  displayName : Option Text := none
  sourceExt : Option Text := none

inductive Call
  | getOrCreate (c : GetOrCreate)
  | updateProviderFileId (mediaId providerFileId : Text)

namespace GetOrCreate
variable (c : GetOrCreate)

def normalizedSourcePath : Text := normalizeSourcePath (some c.sourcePath)

def resolvedDisplayName : Text :=
  (truthy c.displayName).getD (deriveDisplayName c.normalizedSourcePath c.providerFileId)

def resolvedSourceExt : Text := (truthy c.sourceExt).getD (deriveSourceExt c.resolvedDisplayName)

def find (t : MediaMappings) : Option MediaMapping :=
  t.findExistingMapping c.choice c.backendId c.providerFileId c.normalizedSourcePath

/-- The row that is added when there is none. -/
def created (sha1 : List UInt8 → Vector UInt8 20) : MediaMapping where
  mediaId := buildMediaId sha1 c.backendId c.providerFileId c.normalizedSourcePath
  backendId := c.backendId
  providerFileId := c.providerFileId
  sourcePath := c.normalizedSourcePath
  displayName := c.resolvedDisplayName
  sourceExt := c.resolvedSourceExt
  strmPath := c.strmPath

/-- What becomes of the row that was found. -/
def refreshed (r : MediaMapping) : MediaMapping :=
  { r with
    providerFileId := (truthy c.providerFileId).or r.providerFileId
    sourcePath := c.normalizedSourcePath
    displayName := c.resolvedDisplayName
    sourceExt := c.resolvedSourceExt
    strmPath := (truthy c.strmPath).or r.strmPath }

def perform (sha1 : List UInt8 → Vector UInt8 20) (t : MediaMappings) :
    Except String MediaMapping × MediaMappings :=
  match c.find t with
  | none =>
      match t.insert (c.created sha1) with
      | some t' => (.ok (c.created sha1), t')
      | none => (.error "UNIQUE constraint failed: media_mappings.media_id", t)
  | some r => (.ok (c.refreshed r), t.update r.mediaId c.refreshed fun _ => rfl)

end GetOrCreate

/-- A call, with the row it returns. -/
def Call.perform (sha1 : List UInt8 → Vector UInt8 20) (t : MediaMappings) :
    Call → Except String (Option MediaMapping) × MediaMappings
  | .getOrCreate c => ((c.perform sha1 t).1.map some, (c.perform sha1 t).2)
  | .updateProviderFileId mediaId providerFileId =>
      match t.getByMediaId mediaId with
      | none => (.ok none, t)
      | some r =>
          (.ok (some { r with providerFileId := some providerFileId }),
            t.update mediaId (fun r => { r with providerFileId := some providerFileId })
              fun _ => rfl)

/-- The calls of a run go through, whatever they return. -/
def step (sha1 : List UInt8 → Vector UInt8 20) (t : MediaMappings) (call : Call) :
    Option MediaMappings :=
  some (call.perform sha1 t).2

end SmartMedia.Mapping
