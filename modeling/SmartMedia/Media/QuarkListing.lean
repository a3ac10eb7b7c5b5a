import SmartMedia.Library.Paging
import SmartMedia.Media.QuarkService

/-!
# Two readers of a paged directory

`QuarkService.get_files` and `QuarkStorageProvider.list` send the same requests to
`/file/sort`. The server cuts the directory into pages and names the number of its entries in
the metadata; `list` looks for it under `_total`, `get_files` under `total`.
-/
namespace SmartMedia.Media

/-- What is read of the answer of `/file/sort`. -/
structure SortAnswer where
  list : List FileData
  metadata : List (String × ℕ)

/-- `metadata.get(key, default)`. -/
def metadataGet (metadata : List (String × ℕ)) (key : String) (default : ℕ) : ℕ :=
  (metadata.lookup key).getD default

/-- A page, counted from 1, of a directory of these entries. -/
def serve (entries : List FileData) (metadata : List (String × ℕ)) (size page : ℕ) : SortAnswer where
  list := (entries.drop ((page - 1) * size)).take size
  metadata := metadata

/-- The total under the key that `list_files` documents. -/
def documented (entries : List FileData) : List (String × ℕ) := [("_total", entries.length)]

section GetFiles

/-- An answer as `get_files` reads it. -/
def SortAnswer.pageAnswer (answer : SortAnswer) : PageAnswer where
  list := answer.list
  total := metadataGet answer.metadata "total" 0

/-- `get_files(parent, page_size)` of a directory whose first `asked + 1` pages are answered. -/
def getDirectory (html5 : Path → Option Path) (entries : List FileData)
    (metadata : List (String × ℕ)) (pageSize asked : ℕ) : List FileModel :=
  getFiles html5 false pageSize 1
    ((List.range' 1 (asked + 1)).map fun page =>
      some (serve entries metadata pageSize page).pageAnswer)

end GetFiles

section StorageProvider

/-- `QuarkService.list_files`; names are unescaped. -/
def listFiles (html5 : Path → Option Path) (entries : List FileData)
    (metadata : List (String × ℕ)) (page size : ℕ) : SortAnswer :=
  let answer := serve entries metadata size page
  { answer with
    list := answer.list.map fun file => { file with fileName := Html.unescape html5 file.fileName } }

/-- What the listing shows of an entry. -/
structure FileItem where
  id : String
  name : Path
  path : String
  isFolder : Bool
  extension : Option Path
  size : ℕ
  deriving DecidableEq, Repr

/-- `_map_to_file_item`. -/
def mapToFileItem (file : FileData) : FileItem where
  id := file.fid
  name := file.fileName
  path := file.fid
  isFolder := file.fileType = 0
  extension :=
    if '.' ∈ file.fileName then some (file.fileName.reverse.takeWhile (· ≠ '.')).reverse else none
  size := file.size

/-- `QuarkStorageProvider.list`: the items of a page and the total. -/
def storageList (html5 : Path → Option Path) (entries : List FileData)
    (metadata : List (String × ℕ)) (page size : ℕ) : List FileItem × ℕ :=
  let result := listFiles html5 entries metadata page size
  (result.list.map mapToFileItem, metadataGet result.metadata "_total" result.list.length)

/-- The pages of the listing up to the total that its first one names. -/
def storageItems (html5 : Path → Option Path) (entries : List FileData)
    (metadata : List (String × ℕ)) (size : ℕ) : List FileItem :=
  let total := (storageList html5 entries metadata 1 size).2
  (List.range' 1 ((total + size - 1) / size)).flatMap fun page =>
    (storageList html5 entries metadata page size).1

end StorageProvider

section Pages
variable {html5 : Path → Option Path} {entries : List FileData}
  {metadata : List (String × ℕ)} {pageSize page : ℕ}

theorem getFiles_cons_serve (answers : List (Option PageAnswer)) :
    getFiles html5 false pageSize page
        (some (serve entries metadata pageSize page).pageAnswer :: answers) =
      ((entries.drop ((page - 1) * pageSize)).take pageSize).map (fileModelFromInfo html5) ++
        if metadataGet metadata "total" 0 ≤ page * pageSize then []
        else getFiles html5 false pageSize (page + 1) answers := by
  simp only [getFiles, serve, SortAnswer.pageAnswer, Bool.false_and, Bool.not_false,
    List.filter_true]
  rfl

/-- The loop, on any total: it reads the pages up to the first one that reaches the total. -/
theorem getFiles_serve (more : ℕ) {asked : ℕ} (hpage : 1 ≤ page) (hasked : more < asked)
    (hgo : ∀ k, page ≤ k → k < page + more → k * pageSize < metadataGet metadata "total" 0)
    (hstop : metadataGet metadata "total" 0 ≤ (page + more) * pageSize) :
    getFiles html5 false pageSize page ((List.range' page asked).map fun k =>
        some (serve entries metadata pageSize k).pageAnswer) =
      ((entries.drop ((page - 1) * pageSize)).take ((more + 1) * pageSize)).map
        (fileModelFromInfo html5) := by
  induction more generalizing page asked with
  | zero =>
      obtain ⟨asked, rfl⟩ := Nat.exists_eq_succ_of_ne_zero (Nat.ne_of_gt hasked)
      rw [Nat.add_zero] at hstop
      rw [List.range'_succ, List.map_cons, getFiles_cons_serve, if_pos hstop, List.append_nil,
        Nat.zero_add, Nat.one_mul]
  | succ more ih =>
      obtain ⟨asked, rfl⟩ := Nat.exists_eq_succ_of_ne_zero (Nat.ne_of_gt (Nat.zero_lt_of_lt hasked))
      have hopen : ¬ metadataGet metadata "total" 0 ≤ page * pageSize :=
        Nat.not_le.mpr (hgo page (Nat.le_refl _) (by omega))
      have hstart : (page + 1 - 1) * pageSize = (page - 1) * pageSize + pageSize := by
        rw [← Nat.succ_mul]
        congr 1
        omega
      rw [List.range'_succ, List.map_cons, getFiles_cons_serve, if_neg hopen,
        ih (by omega) (by omega) (fun k hk hlt => hgo k (by omega) (by omega)), hstart,
        ← List.map_append, Paging.window_append]
      · congr 2
        rw [Nat.succ_mul (more + 1), Nat.add_comm]
      · rw [Nat.add_assoc, Nat.add_comm 1 more]
        exact hstop

/-- Under the key it reads, `get_files` gets every entry. -/
theorem getDirectory_of_total {asked : ℕ} (hsize : 1 ≤ pageSize)
    (htotal : metadataGet metadata "total" 0 = entries.length)
    (hasked : entries.length ≤ asked * pageSize) :
    getDirectory html5 entries metadata pageSize asked = entries.map (fileModelFromInfo html5) := by
  set more := (entries.length - 1) / pageSize with hmore
  have hpages : more * pageSize ≤ entries.length - 1 := Nat.div_mul_le_self _ _
  have hlast : entries.length ≤ (1 + more) * pageSize := by
    have hlt : entries.length - 1 < more * pageSize + pageSize := Nat.lt_div_mul_add hsize
    rw [Nat.add_mul, Nat.one_mul]
    omega
  have hanswered : more < asked + 1 := by
    by_contra hmany
    have hle : (asked + 1) * pageSize ≤ more * pageSize :=
      Nat.mul_le_mul_right _ (Nat.not_lt.mp hmany)
    rw [Nat.add_mul, Nat.one_mul] at hle
    omega
  unfold getDirectory
  rw [getFiles_serve more (Nat.le_refl 1) hanswered, Nat.sub_self, Nat.zero_mul, List.drop_zero,
    List.take_of_length_le]
  · rw [Nat.add_comm more 1]
    exact hlast
  · intro k hk hlt
    have hle : k * pageSize ≤ more * pageSize := Nat.mul_le_mul_right _ (by omega)
    have hpos : 1 * pageSize ≤ k * pageSize := Nat.mul_le_mul_right _ hk
    omega
  · rw [htotal]
    exact hlast

/-- Under the documented key it finds no total, and stops after the first page. -/
theorem getDirectory_documented (html5 : Path → Option Path) (entries : List FileData)
    (pageSize asked : ℕ) :
    getDirectory html5 entries (documented entries) pageSize asked =
      (entries.take pageSize).map (fileModelFromInfo html5) := by
  have hnone : metadataGet (documented entries) "total" 0 = 0 := rfl
  unfold getDirectory
  rw [getFiles_serve 0 (Nat.le_refl 1) (Nat.zero_lt_succ asked) (by omega), Nat.sub_self,
    Nat.zero_mul, List.drop_zero, Nat.zero_add, Nat.one_mul]
  rw [hnone]
  exact Nat.zero_le _

/-- The listing shows every entry. -/
theorem storageItems_documented (hsize : 1 ≤ pageSize) :
    storageItems html5 entries (documented entries) pageSize =
      entries.map fun file =>
        mapToFileItem { file with fileName := Html.unescape html5 file.fileName } := by
  have hcover : entries.length ≤ (entries.length + pageSize - 1) / pageSize * pageSize := by
    have hlt : entries.length + pageSize - 1 <
        (entries.length + pageSize - 1) / pageSize * pageSize + pageSize := Nat.lt_div_mul_add hsize
    omega
  have htotal : (storageList html5 entries (documented entries) 1 pageSize).2 = entries.length := rfl
  set toItem : FileData → FileItem := fun file =>
    mapToFileItem { file with fileName := Html.unescape html5 file.fileName } with htoItem
  have hpage : ∀ page, (storageList html5 entries (documented entries) page pageSize).1 =
      ((entries.drop ((page - 1) * pageSize)).take pageSize).map toItem := by
    intro page
    simp only [storageList, listFiles, serve, List.map_map, htoItem, Function.comp_def]
  simp only [storageItems, htotal, hpage]
  rw [← List.map_flatMap, Paging.windows_flatMap, List.take_of_length_le hcover]

end Pages

/-- A listing by `get_files` has every entry once and in order, as the storage listing shows
them. -/
structure Complete (html5 : Path → Option Path) (entries : List FileData) (pageSize asked : ℕ) :
    Prop where
  all : getDirectory html5 entries (documented entries) pageSize asked =
    entries.map (fileModelFromInfo html5)
  same : (getDirectory html5 entries (documented entries) pageSize asked).map
      (fun file => (file.fid, file.fileName, file.isDir, file.size)) =
    (storageItems html5 entries (documented entries) pageSize).map
      fun item => (item.id, item.name, item.isFolder, item.size)

/-- Only a directory of one page is listed completely. -/
theorem getFiles_complete_iff (html5 : Path → Option Path) (entries : List FileData)
    (pageSize asked : ℕ) (hsize : 1 ≤ pageSize) :
    Complete html5 entries pageSize asked ↔ entries.length ≤ pageSize := by
  rw [← List.take_eq_self_iff]
  constructor
  · intro h
    have hlength := congrArg List.length h.all
    rw [getDirectory_documented, List.length_map, List.length_map] at hlength
    exact (List.take_prefix pageSize entries).eq_of_length hlength
  · intro hone
    have hall : getDirectory html5 entries (documented entries) pageSize asked =
        entries.map (fileModelFromInfo html5) := by
      rw [getDirectory_documented, hone]
    refine ⟨hall, ?_⟩
    rw [hall, storageItems_documented hsize, List.map_map, List.map_map]
    rfl

/-- A directory of two entries, with pages of one. -/
def twoFiles : List FileData := [⟨"a", "a.mkv".toList, 1, 1, 0⟩, ⟨"b", "b.mkv".toList, 1, 1, 0⟩]

/-- The second page is never asked for. -/
theorem twoFiles_incomplete : ¬ Complete (fun _ => none) twoFiles 1 5 := by
  intro h
  have hlength := congrArg List.length h.all
  rw [getDirectory_documented] at hlength
  exact absurd hlength (by decide)

theorem getFiles_complete_onePage : Complete (fun _ => none) twoFiles 2 5 :=
  (getFiles_complete_iff (fun _ => none) twoFiles 2 5 (by decide)).mpr (by decide)

end SmartMedia.Media
