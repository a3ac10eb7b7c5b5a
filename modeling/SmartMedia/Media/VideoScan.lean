import Mathlib.Data.Set.Card
import SmartMedia.Media.QuarkListing
import SmartMedia.Media.RemotePaths
import SmartMedia.Media.Turns

/-!
# The videos of a remote folder

`get_all_video_files` of `app/services/integrations/quark.py` on a drive whose listing requests
succeed. Of each folder one page of a hundred entries is read.
-/
namespace SmartMedia.Media
namespace RemoteTree
variable (tree : RemoteTree) (lower : Path → Path) (html5 : Path → Option Path)

section GetAllVideoFiles
variable (recursive : Bool) (maxFiles : ℕ)

/-- `list_files` of a folder of the drive. -/
def listFiles (fid : String) (page size : ℕ) : List FileData :=
  let entries := (tree.children fid).map (·.toFileData)
  (Media.listFiles html5 entries (documented entries) page size).list

/-- `file_type == 1 and self.is_video_file(file_name)` -/
def IsVideo (f : FileData) : Prop := f.fileType = 1 ∧ isVideoPath lower f.fileName = true

instance : DecidablePred (IsVideo lower) := fun f =>
  inferInstanceAs (Decidable (f.fileType = 1 ∧ isVideoPath lower f.fileName = true))

/-- The loop over the entries of a folder, with the scan of a folder in it. -/
def scanItems (scan : String → List FileData → List FileData) :
    List FileData → List FileData → List FileData
  | [], found => found
  | item :: items, found =>
      if maxFiles ≤ found.length then found
      else if IsVideo lower item then scanItems scan items (found ++ [item])
      else if item.fileType = 0 ∧ recursive = true ∧ item.fid ≠ "" then
        scanItems scan items (scan item.fid found)
      else scanItems scan items found

/-- `scan_directory`, with the number of levels that may still be scanned. -/
def scanDirectory : ℕ → String → List FileData → List FileData
  | 0, _, found => found
  | levels + 1, fid, found =>
      if maxFiles ≤ found.length then found
      else scanItems lower recursive maxFiles (scanDirectory levels)
        (tree.listFiles html5 fid 1 100) found

def getAllVideoFiles (pdirFid : String) : List FileData :=
  (tree.scanDirectory lower html5 recursive maxFiles 11 pdirFid []).take maxFiles

end GetAllVideoFiles

section Videos

/-- An entry as it is listed. -/
def shown (e : RemoteEntry) : FileData := { e.toFileData with fileName := name html5 e }

/-- The folders on the way from a folder down to an entry. -/
def Leads (start : String) (way : List RemoteEntry) (e : RemoteEntry) : Prop :=
  IsWay tree start (way ++ [e]) ∧ ∀ d ∈ way, d.fileType = 0

/-- The videos at any depth below a folder. -/
def videos (start : String) : Set FileData :=
  {f | ∃ way e, tree.Leads start way e ∧ f = shown html5 e ∧ IsVideo lower f}

/-- The entry is on the first page of its folder. -/
def OnFirstPage (e : RemoteEntry) : Prop := e ∈ (tree.children e.pdirFid).take 100

/-- The videos that are on the first page of their folder, as are all folders on the way. -/
def firstPageVideos (start : String) : Set FileData :=
  {f | ∃ way e, tree.Leads start way e ∧ f = shown html5 e ∧ IsVideo lower f ∧
    ∀ d ∈ way ++ [e], tree.OnFirstPage d}

/-- So many videos, all different, and all of them if there are no more. -/
structure ListsVideos (start : String) (maxFiles : ℕ) (result : List FileData) : Prop where
  distinct : (result.map (·.fid)).Nodup
  videos : ∀ f ∈ result, f ∈ tree.videos lower html5 start
  count : result.length = min maxFiles (tree.videos lower html5 start).ncard
  all : (tree.videos lower html5 start).ncard ≤ maxFiles →
    ∀ f ∈ tree.videos lower html5 start, f ∈ result

end Videos

section Scan
variable {tree lower html5} {maxFiles : ℕ} {start fid : String} {e : RemoteEntry}

/-- The videos among the first hundred entries of the folders, down to a level. -/
def found (tree : RemoteTree) (lower : Path → Path) (html5 : Path → Option Path) :
    ℕ → String → List RemoteEntry
  | 0, _ => []
  | levels + 1, fid => ((tree.children fid).take 100).flatMap fun e =>
      if IsVideo lower (shown html5 e) then [e]
      else if e.fileType = 0 then found tree lower html5 levels e.fid
      else []

theorem listFiles_first (fid : String) (size : ℕ) :
    tree.listFiles html5 fid 1 size = ((tree.children fid).take size).map (shown html5) := by
  simp only [listFiles, Media.listFiles, serve, Nat.sub_self, Nat.zero_mul, List.drop_zero]
  rw [← List.map_take, List.map_map]
  rfl

theorem take_take_append {α : Type} (n : ℕ) (l m : List α) :
    (l.take n ++ m).take n = (l ++ m).take n := by
  rw [List.take_append, List.take_append, List.take_take, Nat.min_self, List.length_take]
  congr 2
  omega

/-- The loop adds what its entries have, up to the limit. -/
theorem scanItems_eq {scan : String → List FileData → List FileData}
    {below : String → List FileData}
    (hscan : ∀ fid sofar, sofar.length ≤ maxFiles →
      scan fid sofar = (sofar ++ below fid).take maxFiles)
    {items : List RemoteEntry} (hitems : ∀ e ∈ items, e.fid ≠ "") {sofar : List FileData}
    (hsofar : sofar.length ≤ maxFiles) :
    scanItems lower true maxFiles scan (items.map (shown html5)) sofar =
      (sofar ++ items.flatMap fun e =>
        if IsVideo lower (shown html5 e) then [shown html5 e]
        else if e.fileType = 0 then below e.fid
        else []).take maxFiles := by
  induction items generalizing sofar with
  | nil =>
      rw [List.map_nil, List.flatMap_nil, List.append_nil, List.take_of_length_le hsofar, scanItems]
  | cons e items ih =>
      have hrest : ∀ e ∈ items, e.fid ≠ "" := fun d hd => hitems d (List.mem_cons_of_mem e hd)
      rw [List.map_cons, List.flatMap_cons, scanItems]
      by_cases hfull : maxFiles ≤ sofar.length
      · rw [if_pos hfull, List.take_left' (le_antisymm hsofar hfull)]
      rw [if_neg hfull]
      by_cases hvideo : IsVideo lower (shown html5 e)
      · have hlength : (sofar ++ [shown html5 e]).length ≤ maxFiles := by
          rw [List.length_append, List.length_singleton]
          omega
        rw [if_pos hvideo, if_pos hvideo, ih hrest hlength, List.append_assoc]
      rw [if_neg hvideo, if_neg hvideo]
      by_cases hfolder : e.fileType = 0
      · rw [if_pos ⟨hfolder, rfl, hitems e List.mem_cons_self⟩, if_pos hfolder,
          hscan _ _ hsofar, ih hrest (List.length_take_le _ _), take_take_append, List.append_assoc]
        rfl
      · rw [if_neg fun h => hfolder h.1, if_neg hfolder, ih hrest hsofar, List.nil_append]

theorem fid_ne_empty (he : e ∈ tree.children fid) : e.fid ≠ "" :=
  (tree.fid_stripped e (mem_children.mp he).1).1

/-- The scan of a folder adds the videos that it finds, up to the limit. -/
theorem scanDirectory_eq (levels : ℕ) (fid : String) {sofar : List FileData}
    (hsofar : sofar.length ≤ maxFiles) :
    tree.scanDirectory lower html5 true maxFiles levels fid sofar =
      (sofar ++ (found tree lower html5 levels fid).map (shown html5)).take maxFiles := by
  induction levels generalizing fid sofar with
  | zero =>
      rw [scanDirectory, found, List.map_nil, List.append_nil, List.take_of_length_le hsofar]
  | succ levels ih =>
      rw [scanDirectory]
      split_ifs with hfull
      · rw [List.take_left' (le_antisymm hsofar hfull)]
      · rw [listFiles_first, scanItems_eq (fun fid sofar h => ih fid h)
          (fun e he => fid_ne_empty (List.mem_of_mem_take he)) hsofar, found, List.map_flatMap]
        congr 3
        funext e
        split_ifs
        · rfl
        · rfl
        · rfl

theorem getAllVideoFiles_eq (start : String) :
    tree.getAllVideoFiles lower html5 true maxFiles start =
      ((found tree lower html5 11 start).map (shown html5)).take maxFiles := by
  rw [getAllVideoFiles, scanDirectory_eq 11 start (Nat.zero_le maxFiles), List.nil_append,
    List.take_take, Nat.min_self]

section Ways
variable {way : List RemoteEntry} {c : RemoteEntry} {levels : ℕ}

theorem leads_cons : tree.Leads start (c :: way) e ↔
    c ∈ tree.children start ∧ c.fileType = 0 ∧ tree.Leads c.fid way e := by
  rw [Leads, Leads, List.cons_append, IsWay, List.forall_mem_cons, mem_children]
  constructor
  · rintro ⟨⟨he, hparent, hway⟩, hfolder, hway'⟩
    exact ⟨⟨he, hparent⟩, hfolder, hway, hway'⟩
  · rintro ⟨⟨he, hparent⟩, hfolder, hway, hway'⟩
    exact ⟨⟨he, hparent, hway⟩, hfolder, hway'⟩

theorem leads_nil : tree.Leads start [] e ↔ e ∈ tree.children start := by
  simp [Leads, IsWay, mem_children]

theorem onFirstPage_iff (hc : c ∈ tree.children start) :
    tree.OnFirstPage c ↔ c ∈ (tree.children start).take 100 := by
  rw [OnFirstPage, (mem_children.mp hc).2]

/-- What the scan finds: the videos down to the level to which first pages lead. -/
theorem mem_found : e ∈ found tree lower html5 levels start ↔
    ∃ way, way.length < levels ∧ tree.Leads start way e ∧ IsVideo lower (shown html5 e) ∧
      ∀ d ∈ way ++ [e], tree.OnFirstPage d := by
  induction levels generalizing start with
  | zero => simp [found]
  | succ levels ih =>
      rw [found, List.mem_flatMap]
      constructor
      · rintro ⟨c, hc, he⟩
        have hchild := List.mem_of_mem_take hc
        split_ifs at he with hvideo hfolder
        · obtain rfl := List.mem_singleton.mp he
          refine ⟨[], Nat.succ_pos levels, leads_nil.mpr hchild, hvideo, ?_⟩
          simpa using (onFirstPage_iff hchild).mpr hc
        · obtain ⟨way, hlength, hleads, hvideo', hpages⟩ := ih.mp he
          refine ⟨c :: way, Nat.succ_lt_succ hlength, leads_cons.mpr ⟨hchild, hfolder, hleads⟩,
            hvideo', ?_⟩
          rw [List.cons_append, List.forall_mem_cons]
          exact ⟨(onFirstPage_iff hchild).mpr hc, hpages⟩
        · cases he
      · rintro ⟨way, hlength, hleads, hvideo, hpages⟩
        cases way with
        | nil =>
            have hchild := leads_nil.mp hleads
            refine ⟨e, (onFirstPage_iff hchild).mp (hpages e (by simp)), ?_⟩
            rw [if_pos hvideo]
            exact List.mem_singleton_self e
        | cons c way =>
            obtain ⟨hchild, hfolder, hleads⟩ := leads_cons.mp hleads
            rw [List.cons_append, List.forall_mem_cons] at hpages
            refine ⟨c, (onFirstPage_iff hchild).mp hpages.1, ?_⟩
            have hnot : ¬ IsVideo lower (shown html5 c) := by
              rintro ⟨hfile, -⟩
              exact absurd (hfolder.symm.trans hfile) (by decide)
            rw [if_neg hnot, if_pos hfolder]
            exact ih.mpr ⟨way, Nat.lt_of_succ_lt_succ hlength, hleads, hvideo, hpages.2⟩

/-- An entry lies below one entry of a folder only. -/
theorem branch_unique {w w' : List RemoteEntry} {c c' : RemoteEntry}
    (h : IsWay tree start (c :: w)) (h' : IsWay tree start (c' :: w'))
    (hlast : lastFid start (c :: w) = lastFid start (c' :: w')) : c = c' := by
  have hdepth := depth_lastFid h
  rw [hlast, depth_lastFid h'] at hdepth
  have hlength : (c :: w).length = (c' :: w').length := by omega
  exact (List.cons.inj (way_unique h h' hlength hlast).2).1

theorem found_nodup : (found tree lower html5 levels start).Nodup := by
  induction levels generalizing start with
  | zero => exact List.nodup_nil
  | succ levels ih =>
      have hchildren : ((tree.children start).take 100).Nodup :=
        ((tree.fid_nodup.of_map _).filter _).sublist (List.take_sublist _ _)
      rw [found, List.nodup_flatMap]
      constructor
      · intro c _
        split_ifs
        · exact List.nodup_singleton c
        · exact ih
        · exact List.nodup_nil
      · have hbranch : ∀ c ∈ (tree.children start).take 100, ∀ x ∈
            (if IsVideo lower (shown html5 c) then [c]
            else if c.fileType = 0 then found tree lower html5 levels c.fid else []),
            ∃ w, IsWay tree start (c :: w) ∧ lastFid start (c :: w) = x.fid := by
          intro c hc x hx
          have hchild := mem_children.mp (List.mem_of_mem_take hc)
          split_ifs at hx
          · obtain rfl := List.mem_singleton.mp hx
            exact ⟨[], ⟨hchild.1, hchild.2, trivial⟩, rfl⟩
          · obtain ⟨way, -, hleads, -⟩ := mem_found.mp hx
            refine ⟨way ++ [x], ⟨hchild.1, hchild.2, hleads.1⟩, ?_⟩
            rw [← List.cons_append, lastFid_concat]
          · cases hx
        refine hchildren.pairwise_of_forall_ne fun c hc c' hc' hne => ?_
        intro x hx hx'
        obtain ⟨w, hw, hlast⟩ := hbranch c hc x hx
        obtain ⟨w', hw', hlast'⟩ := hbranch c' hc' x hx'
        exact hne (branch_unique hw hw' (hlast.trans hlast'.symm))

end Ways

section Completeness
variable (lower html5)

/-- No folder is more than so many levels below the start. -/
def LevelsAtMost (tree : RemoteTree) (start : String) (levels : ℕ) : Prop :=
  ∀ way d, tree.Leads start way d → d.fileType = 0 → way.length + 1 ≤ levels

theorem Leads.mem {way : List RemoteEntry} (h : tree.Leads start way e) : e ∈ tree.entries :=
  h.1.mem e (by simp)

theorem Leads.length_le {levels : ℕ} (hlevels : LevelsAtMost tree start levels)
    {way : List RemoteEntry} (h : tree.Leads start way e) : way.length ≤ levels := by
  rcases List.eq_nil_or_concat' way with rfl | ⟨way, d, rfl⟩
  · exact Nat.zero_le levels
  · obtain ⟨hway, hfolders⟩ := h
    rw [List.forall_mem_append, List.forall_mem_singleton] at hfolders
    have hd := hlevels way d ⟨(isWay_concat.mp hway).1, hfolders.1⟩ hfolders.2
    rw [List.length_append, List.length_singleton]
    exact hd

theorem finite_videos (tree : RemoteTree) (start : String) : (tree.videos lower html5 start).Finite := by
  refine (tree.entries.map (shown html5)).finite_toSet.subset ?_
  rintro _ ⟨way, e, hleads, rfl, -⟩
  exact List.mem_map_of_mem hleads.mem

theorem firstPageVideos_subset (tree : RemoteTree) (start : String) :
    tree.firstPageVideos lower html5 start ⊆ tree.videos lower html5 start := by
  rintro f ⟨way, e, hleads, hf, hvideo, -⟩
  exact ⟨way, e, hleads, hf, hvideo⟩

theorem found_distinct (tree : RemoteTree) (start : String) (levels : ℕ) :
    (((found tree lower html5 levels start).map (shown html5)).map (·.fid)).Nodup := by
  rw [List.map_map]
  refine found_nodup.map_on fun d hd e he => ?_
  obtain ⟨_, _, hleads, _⟩ := mem_found.mp hd
  obtain ⟨_, _, hleads', _⟩ := mem_found.mp he
  exact eq_of_fid hleads.mem hleads'.mem

theorem mem_map_found (hlevels : LevelsAtMost tree start 10) {f : FileData} :
    f ∈ (found tree lower html5 11 start).map (shown html5) ↔
      f ∈ tree.firstPageVideos lower html5 start := by
  rw [List.mem_map]
  constructor
  · rintro ⟨e, he, rfl⟩
    obtain ⟨way, -, hleads, hvideo, hpages⟩ := mem_found.mp he
    exact ⟨way, e, hleads, rfl, hvideo, hpages⟩
  · rintro ⟨way, e, hleads, rfl, hvideo, hpages⟩
    exact ⟨e, mem_found.mpr
      ⟨way, Nat.lt_succ_of_le (hleads.length_le hlevels), hleads, hvideo, hpages⟩, rfl⟩

theorem length_found (hlevels : LevelsAtMost tree start 10) :
    ((found tree lower html5 11 start).map (shown html5)).length =
      (tree.firstPageVideos lower html5 start).ncard := by
  classical
  have hset : tree.firstPageVideos lower html5 start =
      ↑((found tree lower html5 11 start).map (shown html5)).toFinset := by
    ext f
    rw [List.coe_toFinset]
    exact (mem_map_found lower html5 hlevels).symm
  rw [hset, Set.ncard_coe_finset, List.toFinset_card_of_nodup]
  exact (found_distinct lower html5 tree start 11).of_map _

/-- The scan lists the videos exactly if there are enough of them on the first pages, or all. -/
theorem getAllVideoFiles_lists_iff (tree : RemoteTree) (lower : Path → Path)
    (html5 : Path → Option Path) (start : String) (maxFiles : ℕ)
    (hlevels : LevelsAtMost tree start 10) :
    tree.ListsVideos lower html5 start maxFiles
        (tree.getAllVideoFiles lower html5 true maxFiles start) ↔
      maxFiles ≤ (tree.firstPageVideos lower html5 start).ncard ∨
        tree.firstPageVideos lower html5 start = tree.videos lower html5 start := by
  have hlength := length_found lower html5 hlevels
  have hmem : ∀ f, _ ↔ _ := fun f => mem_map_found lower html5 hlevels (f := f)
  have hdistinct := found_distinct lower html5 tree start 11
  have hfirst := firstPageVideos_subset lower html5 tree start
  rw [getAllVideoFiles_eq]
  set listed := (found tree lower html5 11 start).map (shown html5)
  have hle := Set.ncard_le_ncard hfirst (finite_videos lower html5 tree start)
  constructor
  · intro h
    have hcount := h.count
    rw [List.length_take, hlength] at hcount
    refine or_iff_not_imp_left.mpr fun hmore => ?_
    exact Set.eq_of_subset_of_ncard_le hfirst (by omega) (finite_videos lower html5 tree start)
  · intro h
    have hcount : min maxFiles (tree.firstPageVideos lower html5 start).ncard =
        min maxFiles (tree.videos lower html5 start).ncard := by
      rcases h with h | h
      · omega
      · rw [h]
    refine ⟨?_, ?_, ?_, ?_⟩
    · exact hdistinct.sublist ((List.take_sublist maxFiles listed).map _)
    · intro f hf
      exact hfirst ((hmem f).mp (List.mem_of_mem_take hf))
    · rw [List.length_take, hlength, hcount]
    · intro hall f hf
      have hsame := Set.eq_of_subset_of_ncard_le hfirst (by omega) (finite_videos lower html5 tree start)
      rw [List.take_of_length_le (by omega)]
      exact (hmem f).mpr (hsame ▸ hf)

/-- On a drive of a hundred entries everything is on the first page. -/
theorem firstPageVideos_of_length (tree : RemoteTree) (start : String)
    (hlength : tree.entries.length ≤ 100) :
    tree.firstPageVideos lower html5 start = tree.videos lower html5 start := by
  refine (firstPageVideos_subset lower html5 tree start).antisymm ?_
  rintro f ⟨way, e, hleads, hf, hvideo⟩
  refine ⟨way, e, hleads, hf, hvideo, fun d hd => ?_⟩
  have hchildren : (tree.children d.pdirFid).length ≤ 100 :=
    (List.length_filter_le _ _).trans hlength
  rw [OnFirstPage, List.take_of_length_le hchildren]
  exact mem_children.mpr ⟨hleads.1.mem d hd, rfl⟩

end Completeness

end Scan

section Samples

/-- Text files before a video. -/
def manyFiles (texts : ℕ) : List RemoteEntry :=
  (List.range (texts + 1)).map fun i =>
    { fid := String.singleton (Char.ofNat (0x4e00 + i)),
      fileName := if i < texts then "a.txt".toList else "b.mkv".toList,
      fileType := 1, category := 1, size := 0, pdirFid := "0" }

def belowRoot (fid : String) : ℕ := if fid = "0" then 0 else 1

/-- A video after a hundred other files. -/
def crowded : RemoteTree where
  entries := manyFiles 100
  depth := belowRoot
  fid_nodup := by decide +kernel
  fid_ne_root := by decide +kernel
  fid_stripped := by decide +kernel
  parent := by decide +kernel
  depth_root := rfl
  depth_entry := by decide +kernel

/-- It is not found. -/
theorem crowded_incomplete : ¬ crowded.ListsVideos id (fun _ => none) "0" 1
    (crowded.getAllVideoFiles id (fun _ => none) true 1 "0") := by
  intro h
  have hnone : crowded.getAllVideoFiles id (fun _ => none) true 1 "0" = [] := by decide +kernel
  have hcount := h.count
  rw [hnone, List.length_nil] at hcount
  have hempty : crowded.videos id (fun _ => none) "0" = ∅ := by
    rw [← Set.ncard_eq_zero (finite_videos id (fun _ => none) crowded "0")]
    omega
  obtain ⟨e, he, hvideo⟩ : ∃ e ∈ crowded.children "0", IsVideo id (shown (fun _ => none) e) := by
    decide +kernel
  have hmem : shown (fun _ => none) e ∈ crowded.videos id (fun _ => none) "0" :=
    ⟨[], e, leads_nil.mpr he, rfl, hvideo⟩
  rw [hempty] at hmem
  exact hmem

/-- A video after one other file. -/
def quiet : RemoteTree where
  entries := manyFiles 1
  depth := belowRoot
  fid_nodup := by decide +kernel
  fid_ne_root := by decide +kernel
  fid_stripped := by decide +kernel
  parent := by decide +kernel
  depth_root := rfl
  depth_entry := by decide +kernel

theorem quiet_complete : quiet.ListsVideos id (fun _ => none) "0" 10
    (quiet.getAllVideoFiles id (fun _ => none) true 10 "0") := by
  have hfiles : ∀ e ∈ quiet.entries, e.fileType ≠ 0 := by decide +kernel
  have hlevels : LevelsAtMost quiet "0" 10 := fun way d h hfolder =>
    absurd hfolder (hfiles d h.mem)
  exact (getAllVideoFiles_lists_iff quiet id (fun _ => none) "0" 10 hlevels).mpr
    (.inr (firstPageVideos_of_length id (fun _ => none) quiet "0" (by decide)))

end Samples

end RemoteTree

end SmartMedia.Media
