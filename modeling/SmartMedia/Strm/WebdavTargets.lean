import SmartMedia.Strm.WebdavScan

/-!
# Do WebDAV URLs lead back to their files?

The URL of a file is resolved from the root of the drive. So the path that a scan puts before its
files has to lead to the folder that it scans, and no name below may be taken for the name of an
entry listed earlier.
-/
namespace SmartMedia.Strm
open Media Media.RemoteTree

variable {tree : RemoteTree} {html5 : Path → Option Path} {options : ScanOptions}
  {info : ListedInfo} {e first : RemoteEntry} {front below way : List RemoteEntry} {root : String}
  {path remotePath : Path}

/-- The names of a drive can be told apart and be segments of a path. -/
structure WellNamed (tree : RemoteTree) (html5 : Path → Option Path) : Prop
    extends NamesDistinct tree html5 where
  nonempty : ∀ e ∈ tree.entries, name html5 e ≠ []

section Listing

/-- What the listing of a folder comes to for an entry below. -/
def listed (html5 : Path → Option Path) (remotePath : Path) (front : List RemoteEntry)
    (e : RemoteEntry) : ListedInfo :=
  ⟨e.fid, name html5 e, ((front ++ [e]).map (name html5)).foldl joinName remotePath, e.size,
    e.category⟩

/-- The files that are listed, with the folders above them. -/
structure Wanted (options : ScanOptions) (front : List RemoteEntry) (e : RemoteEntry) : Prop where
  folders : ∀ d ∈ front, d.fileType = 0
  entered : front ≠ [] → options.recursive = true
  file : e.fileType ≠ 0
  video : options.onlyVideo = true → e.category = 1

theorem mem_getAllFiles_succ {fuel : ℕ} :
    info ∈ getAllFiles tree html5 options (fuel + 1) root remotePath ↔
      ∃ e ∈ tree.entries, e.pdirFid = root ∧
        ((e.fileType = 0 ∧ options.recursive = true ∧
            info ∈ getAllFiles tree html5 options fuel e.fid (joinName remotePath (name html5 e))) ∨
          (e.fileType ≠ 0 ∧ (options.onlyVideo = true → e.category = 1) ∧
            info = listed html5 remotePath [] e)) := by
  have hbody : ∀ e : RemoteEntry, info ∈ (fun file : FileModel =>
        let current := joinName remotePath file.fileName
        if file.isDir then
          if options.recursive then getAllFiles tree html5 options fuel file.fid current else []
        else if options.onlyVideo = true ∧ file.category ≠ 1 then []
        else [⟨file.fid, file.fileName, current, file.size, file.category⟩])
        (fileModelFromInfo html5 e.toFileData) ↔
      (e.fileType = 0 ∧ options.recursive = true ∧
            info ∈ getAllFiles tree html5 options fuel e.fid (joinName remotePath (name html5 e))) ∨
          (e.fileType ≠ 0 ∧ (options.onlyVideo = true → e.category = 1) ∧
            info = listed html5 remotePath [] e) := by
    intro e
    have hmodel : (fileModelFromInfo html5 e.toFileData).isDir = decide (e.fileType = 0) := rfl
    by_cases hdir : e.fileType = 0
    · rw [decide_eq_true hdir] at hmodel
      simp only [hmodel, if_true, hdir, true_and, ne_eq, not_true_eq_false, false_and, or_false]
      split_ifs with hrecursive
      · rw [hrecursive, eq_self, true_and]
        rfl
      · simp [hrecursive]
    · rw [decide_eq_false hdir] at hmodel
      simp only [hmodel, Bool.false_eq_true, if_false, hdir, false_and, false_or, ne_eq,
        not_false_eq_true, true_and]
      split_ifs with hvideo
      · simpa using fun h _ => hvideo.2 (h hvideo.1)
      · rw [List.mem_singleton]
        refine (and_iff_right fun honly => ?_).symm
        by_contra hcategory
        exact hvideo ⟨honly, hcategory⟩
  rw [getAllFiles, files, List.mem_flatMap]
  constructor
  · rintro ⟨file, hfile, hinfo⟩
    obtain ⟨e, he, rfl⟩ := List.mem_map.mp hfile
    obtain ⟨he, hparent⟩ := mem_children.mp he
    exact ⟨e, he, hparent, (hbody e).mp hinfo⟩
  · rintro ⟨e, he, hparent, hinfo⟩
    exact ⟨_, List.mem_map.mpr ⟨e, mem_children.mpr ⟨he, hparent⟩, rfl⟩, (hbody e).mpr hinfo⟩

theorem mem_getAllFiles {fuel : ℕ} : info ∈ getAllFiles tree html5 options fuel root remotePath ↔
    ∃ front e, front.length < fuel ∧ IsWay tree root (front ++ [e]) ∧ Wanted options front e ∧
      info = listed html5 remotePath front e := by
  induction fuel generalizing root remotePath with
  | zero => simp [getAllFiles]
  | succ fuel ih =>
      rw [mem_getAllFiles_succ]
      constructor
      · rintro ⟨d, hd, rfl, ⟨hdir, hrecursive, hinfo⟩ | ⟨hfile, hvideo, hinfo⟩⟩
        · obtain ⟨front, e, hfuel, hway, hwanted, hinfo⟩ := ih.mp hinfo
          refine ⟨d :: front, e, Nat.succ_lt_succ hfuel, ⟨hd, rfl, hway⟩, ?_, hinfo⟩
          refine ⟨?_, fun _ => hrecursive, hwanted.file, hwanted.video⟩
          rw [List.forall_mem_cons]
          exact ⟨hdir, hwanted.folders⟩
        · exact ⟨[], d, Nat.succ_pos fuel, ⟨hd, rfl, trivial⟩, ⟨by simp, by simp, hfile, hvideo⟩, hinfo⟩
      · rintro ⟨front, e, hfuel, hway, hwanted, hinfo⟩
        cases front with
        | nil => exact ⟨e, hway.1, hway.2.1, .inr ⟨hwanted.file, hwanted.video, hinfo⟩⟩
        | cons d front =>
            obtain ⟨hd, hparent, hway⟩ := hway
            have hbelow : Wanted options front e :=
              ⟨fun x hx => hwanted.folders x (List.mem_cons_of_mem d hx),
                fun _ => hwanted.entered (List.cons_ne_nil d front), hwanted.file, hwanted.video⟩
            refine ⟨d, hd, hparent, .inl ⟨hwanted.folders d List.mem_cons_self, ?_, ?_⟩⟩
            · exact hwanted.entered (List.cons_ne_nil d front)
            · exact ih.mpr ⟨front, e, Nat.lt_of_succ_lt_succ hfuel, hway, hbelow, hinfo⟩

end Listing

section Conditions

/-- The entries below a folder on the way to an id. -/
def wayBelow (tree : RemoteTree) (root fid : String) : List RemoteEntry :=
  (tree.wayTo fid).drop (tree.wayTo root).length

/-- The segments find the entries of a way one after the other, from the root of the drive or from
the entry that the first one names by its id. -/
def Leads (tree : RemoteTree) (html5 : Path → Option Path) (segments : List Path)
    (way : List RemoteEntry) : Prop :=
  (tree.FindsAll html5 segments way ∧ ∀ first ∈ segments.head?, tree.legacy first = none) ∨
    ∃ first rest x above below, segments = first :: rest ∧ tree.legacy first = some x ∧
      way = above ++ x :: below ∧ tree.FindsAll html5 rest below

/-- The names alone lead from the root of the drive: nothing is between it and the folder, unless
the first name is its own id. -/
def LedByNames (tree : RemoteTree) (html5 : Path → Option Path) (root : String) :
    List RemoteEntry → Prop
  | [] => root = "0"
  | first :: below =>
      ((∀ x, tree.legacy (name html5 first) = some x → x = first) ∧
        (tree.legacy (name html5 first) = none → root = "0" ∧ tree.NotMistaken html5 first)) ∧
          ∀ x ∈ below, tree.NotMistaken html5 x

/-- The path before the names leads to the folder, and none of the names is mistaken. -/
def LedBack (tree : RemoteTree) (html5 : Path → Option Path) (root : String)
    (remotePrefix : Path) (below : List RemoteEntry) : Prop :=
  if components remotePrefix = [] then LedByNames tree html5 root below
  else
    Leads tree html5 (components remotePrefix) (tree.wayTo root) ∧
      ∀ x ∈ below, tree.NotMistaken html5 x

end Conditions

section Ways

/-- The root of the drive, or the id of an entry. -/
def Present (tree : RemoteTree) (fid : String) : Prop := fid = "0" ∨ ∃ d ∈ tree.entries, d.fid = fid

theorem wayTo_root : tree.wayTo "0" = [] := by
  have hway : IsWay tree "0" [] := trivial
  exact wayTo_lastFid hway

theorem wayTo_present (h : Present tree root) :
    IsWay tree "0" (tree.wayTo root) ∧ lastFid "0" (tree.wayTo root) = root := by
  rcases h with rfl | ⟨d, hd, rfl⟩
  · rw [wayTo_root]
    exact ⟨trivial, rfl⟩
  · obtain ⟨front, hfront⟩ := exists_way hd
    have hway := wayTo_lastFid hfront
    rw [lastFid_concat] at hway
    rw [hway]
    exact ⟨hfront, lastFid_concat⟩

theorem lastFid_append : lastFid root (front ++ way) = lastFid (lastFid root front) way :=
  List.foldl_append

theorem isWay_append_iff : IsWay tree root (front ++ way) ↔
    IsWay tree root front ∧ IsWay tree (lastFid root front) way := by
  induction front generalizing root with
  | nil => exact (and_iff_right trivial).symm
  | cons x front ih =>
      have hlast : lastFid root (x :: front) = lastFid x.fid front := rfl
      rw [List.cons_append, IsWay, IsWay, ih, hlast]
      simp only [and_assoc]

theorem wayTo_below (h : Present tree root) (hway : IsWay tree root below) :
    tree.wayTo (lastFid root below) = tree.wayTo root ++ below := by
  obtain ⟨hroot, hlast⟩ := wayTo_present h
  have hall : IsWay tree "0" (tree.wayTo root ++ below) := by
    rw [isWay_append_iff, hlast]
    exact ⟨hroot, hway⟩
  rw [← wayTo_lastFid hall, lastFid_append, hlast]

theorem wayBelow_lastFid (h : Present tree root) (hway : IsWay tree root below) :
    wayBelow tree root (lastFid root below) = below := by
  rw [wayBelow, wayTo_below h hway, List.drop_left]

theorem present_of_way (hway : IsWay tree root (e :: below)) : Present tree root := by
  obtain ⟨he, rfl, -⟩ := hway
  exact tree.parent e he

end Ways

section Lookups

theorem getFileByPath_congr {other : Path} (h : components path = components other) :
    tree.getFileByPath html5 path = tree.getFileByPath html5 other := by
  unfold getFileByPath
  rw [h]

theorem walk_append {file : FileModel} {parts more : List Path} :
    tree.walk html5 file (parts ++ more) =
      (tree.walk html5 file parts).bind fun found => tree.walk html5 found more := by
  induction parts generalizing file with
  | nil => rfl
  | cons part parts ih =>
      rw [List.cons_append, walk, walk, Option.bind_assoc]
      exact congrArg _ (funext fun found => ih)

/-- More segments lead on from what the first ones found. -/
theorem getFileByPath_append {start : Path} {more : List Path} (hstart : components start ≠ [])
    (hpath : components path = components start ++ more) :
    tree.getFileByPath html5 path =
      (tree.getFileByPath html5 start).bind fun found => tree.walk html5 found more := by
  unfold getFileByPath
  rw [hpath]
  cases hsegments : components start with
  | nil => exact absurd hsegments hstart
  | cons first rest =>
      rw [List.cons_append]
      simp only
      cases tree.legacy first with
      | some x => exact walk_append
      | none =>
          simp only
          rw [← List.cons_append]
          exact walk_append

theorem present_of_getFileByPath {file : FileModel} (h : tree.getFileByPath html5 path = some file) :
    Present tree file.fid := by
  have hlast : ∀ start way, Present tree start → IsWay tree start way →
      Present tree (lastFid start way) := by
    intro start way hstart hway
    induction way using List.reverseRecOn with
    | nil => exact hstart
    | append_singleton way e _ =>
        rw [lastFid_concat]
        exact .inr ⟨e, (isWay_concat.mp hway).2.1, rfl⟩
  unfold getFileByPath at h
  split at h
  · obtain rfl := Option.some.inj h
    exact .inl rfl
  · split at h
    · next hlegacy =>
        obtain ⟨way, hway, -, rfl⟩ := walk_eq_some.mp h
        rw [fid_foldl]
        exact hlast _ way (.inr ⟨_, mem_of_legacy hlegacy, rfl⟩) hway
    · obtain ⟨way, hway, -, rfl⟩ := walk_eq_some.mp h
      rw [fid_foldl]
      exact hlast _ way (.inl rfl) hway

/-- A path finds an entry exactly if its segments lead along the way to it. -/
theorem getFileByPath_leads_iff (hpresent : Present tree root) :
    (tree.getFileByPath html5 path).map (·.fid) = some root ↔
      Leads tree html5 (components path) (tree.wayTo root) := by
  obtain ⟨hroot, hlast⟩ := wayTo_present hpresent
  unfold getFileByPath
  cases hsegments : components path with
  | nil =>
      rw [Leads, FindsAll, List.forall₂_nil_left_iff]
      constructor
      · intro hfid
        obtain rfl : "0" = root := Option.some.inj hfid
        exact .inl ⟨wayTo_root, by simp⟩
      · rintro (⟨hnil, -⟩ | ⟨first, rest, x, above, below, hcons, -⟩)
        · rw [hnil] at hlast
          exact congrArg some hlast
        · cases hcons
  | cons first rest =>
      simp only
      cases hlegacy : tree.legacy first with
      | none =>
          simp only [Option.map_eq_some_iff, walk_eq_some]
          constructor
          · rintro ⟨_, ⟨way, hway, hfinds, rfl⟩, hfid⟩
            rw [fid_foldl] at hfid
            have hsame : tree.wayTo root = way := hfid ▸ wayTo_lastFid hway
            refine .inl ⟨hsame ▸ hfinds, ?_⟩
            intro first' hfirst
            exact Option.some.inj hfirst ▸ hlegacy
          · rintro (⟨hfinds, -⟩ | ⟨_, _, x, _, _, hcons, hx, -⟩)
            · exact ⟨_, ⟨_, hroot, hfinds, rfl⟩, (fid_foldl _ _).trans hlast⟩
            · cases hcons
              rw [hlegacy] at hx
              cases hx
      | some x =>
          simp only [Option.map_eq_some_iff, walk_eq_some]
          constructor
          · rintro ⟨_, ⟨way, hway, hfinds, rfl⟩, hfid⟩
            rw [fid_foldl] at hfid
            obtain ⟨above, habove⟩ := exists_way (mem_of_legacy hlegacy)
            have hall : IsWay tree "0" (above ++ x :: way) := isWay_append.mpr ⟨habove, hway⟩
            have hsame : tree.wayTo root = above ++ x :: way := by
              rw [← hfid, ← wayTo_lastFid hall, lastFid_append]
              rfl
            exact .inr ⟨first, rest, x, above, way, rfl, hlegacy, hsame, hfinds⟩
          · rintro (⟨-, hnone⟩ | ⟨_, _, y, above, below, hcons, hy, hsame, hfinds⟩)
            · have hfirst := hnone first rfl
              rw [hlegacy] at hfirst
              cases hfirst
            · cases hcons
              obtain rfl : x = y := Option.some.inj (hlegacy.symm.trans hy)
              rw [hsame] at hroot hlast
              refine ⟨_, ⟨below, (isWay_append.mp hroot).2, hfinds, rfl⟩, ?_⟩
              rw [fid_foldl, ← hlast, lastFid_append]
              rfl

/-- From the names below a folder that nothing is put before. -/
theorem names_lead_iff (hnames : WellNamed tree html5) (hway : IsWay tree root below)
    (hpath : components path = below.map (name html5)) :
    (tree.getFileByPath html5 path).map (·.fid) = some (lastFid root below) ↔
      LedByNames tree html5 root below := by
  cases below with
  | nil =>
      have hroot : tree.getFileByPath html5 path = some .root := by
        unfold getFileByPath
        rw [hpath]
        rfl
      rw [hroot]
      exact Option.some_inj.trans eq_comm
  | cons first below =>
      rw [getFileByPath_reaches_from_iff hway hpath (List.length_map _),
        findsAll_names_iff hnames.toNamesDistinct hway.2.2.mem, LedByNames,
        finds_name_iff hnames.toNamesDistinct hway.1]

/-- From a path and the names below the folder it stands for. -/
theorem append_names_lead_iff (hnames : WellNamed tree html5) (hpresent : Present tree root)
    (hway : IsWay tree root below) (hne : components remotePath ≠ [])
    (hpath : components path = components remotePath ++ below.map (name html5)) :
    (tree.getFileByPath html5 path).map (·.fid) = some (lastFid root below) ↔
      Leads tree html5 (components remotePath) (tree.wayTo root) ∧
        ∀ x ∈ below, tree.NotMistaken html5 x := by
  rw [getFileByPath_append hne hpath, ← getFileByPath_leads_iff hpresent,
    ← findsAll_names_iff hnames.toNamesDistinct hway.mem]
  cases hfile : tree.getFileByPath html5 remotePath with
  | none => simp
  | some file =>
      rw [Option.bind_some, walk_reaches_iff hway (List.length_map _), Option.map_some,
        Option.some_inj]

theorem led_back_iff (hnames : WellNamed tree html5) (hpresent : Present tree root)
    (hway : IsWay tree root below)
    (hpath : components path = components remotePath ++ below.map (name html5)) :
    (tree.getFileByPath html5 path).map (·.fid) = some (lastFid root below) ↔
      LedBack tree html5 root remotePath below := by
  rw [LedBack]
  split_ifs with hnil
  · rw [hnil, List.nil_append] at hpath
    exact names_lead_iff hnames hway hpath
  · exact append_names_lead_iff hnames hpresent hway hnil hpath

end Lookups

section Scans
variable {checks : NetlocChecks} {cfg : WebdavConfig} {base : BaseUrl} {call : ScanCall}
  {scan : Scan}

theorem getResourceInst_eq : getResourceInst tree html5 path = tree.getFileByPath html5 path := by
  rw [getResourceInst]
  split_ifs with hnil
  · have hcomponents : components path = [] := by
      rw [← components_stripSlashes, hnil]
      rfl
    unfold getFileByPath
    rw [hcomponents]
  · exact getFileByPath_congr components_stripSlashes

/-- The target of a URL is what its path leads to. -/
theorem urlTarget_eq (haccepted : checkNetloc checks (cfg.netloc base.netloc) = .ok ()) :
    urlTarget tree html5 checks cfg base info =
      (tree.getFileByPath html5 info.remotePath).map (·.fid) := by
  have hserved : ∃ path, cfg.requestPath checks (cfg.videoUrl base info.remotePath) = some path ∧
      components path = components info.remotePath := requestPath_videoUrl haccepted
  obtain ⟨path, hrequest, hpath⟩ := hserved
  rw [urlTarget, hrequest, Option.bind_some, getResourceInst_eq, getFileByPath_congr hpath]

theorem components_joinName {n : Path} (hne : n ≠ []) (hslash : '/' ∉ n) :
    components (joinName path n) = components path ++ [n] := by
  have hname : components n = [n] := by
    rw [components, splitSlash_of_notMem hslash, List.filter_cons, if_pos (decide_eq_true hne),
      List.filter_nil]
  rw [joinName]
  split_ifs with hpath
  · rw [components_append, hname]
  · rw [hname, not_not.mp hpath]
    rfl

theorem components_foldl_joinName {names : List Path} (h : ∀ n ∈ names, n ≠ [] ∧ '/' ∉ n) :
    components (names.foldl joinName path) = components path ++ names := by
  induction names generalizing path with
  | nil => exact (List.append_nil _).symm
  | cons n names ih =>
      obtain ⟨hne, hslash⟩ := h n List.mem_cons_self
      rw [List.foldl_cons, ih fun m hm => h m (List.mem_cons_of_mem n hm),
        components_joinName hne hslash, List.append_assoc]
      rfl

/-- A file of a scan is below its root, with the names on the way in its path. -/
structure Below (tree : RemoteTree) (html5 : Path → Option Path) (scan : Scan)
    (info : ListedInfo) (below : List RemoteEntry) : Prop where
  present : Present tree scan.root
  isWay : IsWay tree scan.root below
  id : info.id = lastFid scan.root below
  path : components info.remotePath = components scan.remotePrefix ++ below.map (name html5)

theorem exists_below_generateStrmFiles (hnames : WellNamed tree html5)
    (hinfo : info ∈ (generateStrmFiles tree html5 options root remotePath).files) :
    ∃ below, Below tree html5 (generateStrmFiles tree html5 options root remotePath) info below := by
  have hall : info ∈ getAllFiles tree html5 options (tree.entries.length + 1) root remotePath := by
    rw [generateStrmFiles] at hinfo
    simp only at hinfo
    split_ifs at hinfo
    · exact List.mem_of_mem_take hinfo
    · exact hinfo
  obtain ⟨front, e, -, hway, -, rfl⟩ := mem_getAllFiles.mp hall
  obtain ⟨first, below, hsplit⟩ := List.exists_cons_of_ne_nil
    (List.append_ne_nil_of_right_ne_nil front (List.cons_ne_nil e []))
  refine ⟨front ++ [e], ?_, hway, lastFid_concat.symm, ?_⟩
  · exact present_of_way (hsplit ▸ hway)
  · apply components_foldl_joinName
    intro n hn
    obtain ⟨x, hx, rfl⟩ := List.mem_map.mp hn
    exact ⟨hnames.nonempty x (hway.mem x hx), hnames.noSlash x (hway.mem x hx)⟩

theorem present_of_locate {node : FileModel} {resolved : Path}
    (h : locate tree html5 path = some (node, resolved)) : Present tree node.fid := by
  rw [locate, Option.map_eq_some_iff] at h
  obtain ⟨⟨found, way⟩, hfound, hnode⟩ := h
  obtain ⟨rfl, -⟩ := Prod.mk.inj hnode
  split at hfound
  · next hpath =>
      obtain ⟨rfl, -⟩ := Prod.mk.inj (Option.some.inj hfound)
      exact present_of_getFileByPath hpath
  · obtain ⟨e, he, hmodel⟩ := Option.map_eq_some_iff.mp hfound
    obtain ⟨rfl, -⟩ := Prod.mk.inj hmodel
    exact .inr ⟨e, (getFileInfo_eq_some.mp he).1, rfl⟩

theorem exists_below (hnames : WellNamed tree html5) (hscan : call.run tree html5 options = some scan)
    (hinfo : info ∈ scan.files) : ∃ below, Below tree html5 scan info below := by
  cases call with
  | fromQuark rootId =>
      obtain rfl := Option.some.inj hscan
      exact exists_below_generateStrmFiles hnames hinfo
  | directory directory =>
      rw [ScanCall.run, scanDirectory] at hscan
      split_ifs at hscan
      · obtain rfl := Option.some.inj hscan
        exact exists_below_generateStrmFiles hnames hinfo
      · obtain ⟨⟨node, resolved⟩, hlocate, hscan⟩ := Option.map_eq_some_iff.mp hscan
        simp only at hscan
        split_ifs at hscan with hdir hresolved
        · subst hscan
          exact exists_below_generateStrmFiles hnames hinfo
        all_goals
          subst hscan
          obtain rfl := List.mem_singleton.mp hinfo
          refine ⟨[], present_of_locate hlocate, trivial, rfl, ?_⟩
          rw [List.map_nil, List.append_nil]
          exact components_lstripSlashes

/-- The URL of a file leads back to it exactly if the path that the scan puts before the names leads
to the scanned folder and none of the names is mistaken. -/
theorem urlTarget_iff (hnames : WellNamed tree html5)
    (haccepted : checkNetloc checks (cfg.netloc base.netloc) = .ok ())
    (hscan : call.run tree html5 options = some scan) (hinfo : info ∈ scan.files) :
    urlTarget tree html5 checks cfg base info = some info.id ↔
      LedBack tree html5 scan.root scan.remotePrefix (wayBelow tree scan.root info.id) := by
  obtain ⟨below, hbelow⟩ := exists_below hnames hscan hinfo
  rw [urlTarget_eq haccepted, hbelow.id, wayBelow_lastFid hbelow.present hbelow.isWay]
  exact led_back_iff hnames hbelow.present hbelow.isWay hbelow.path

/-- A scan that finds its folder by its path puts a path before the names that leads to it. -/
theorem scanDirectory_leads {node : FileModel}
    (hpath : tree.getFileByPath html5 (normalizeRemotePath path) = some node)
    (hid : String.ofList (stripSlashes (normalizeRemotePath path)) ≠ node.fid)
    (hdir : node.isDir = true) :
    ∃ scan, scanDirectory tree html5 options path = some scan ∧ scan.root = node.fid ∧
      Leads tree html5 (components scan.remotePrefix) (tree.wayTo scan.root) := by
  have hleads : Leads tree html5 (components (stripSlashes (normalizeRemotePath path)))
      (tree.wayTo node.fid) := by
    rw [components_stripSlashes, ← getFileByPath_leads_iff (present_of_getFileByPath hpath), hpath]
    rfl
  rw [scanDirectory]
  split_ifs with hroot
  · rw [hroot] at hpath hleads
    obtain rfl := Option.some.inj hpath
    exact ⟨_, rfl, rfl, hroot ▸ hleads⟩
  · have hlocate : locate tree html5 (normalizeRemotePath path) =
        some (node, stripSlashes (normalizeRemotePath path)) := by
      simp only [locate, hpath, Option.map_some, if_neg hid]
    refine ⟨generateStrmFiles tree html5 options node.fid (stripSlashes (normalizeRemotePath path)),
      ?_, rfl, hleads⟩
    simp only [hlocate, Option.map_some, if_pos hdir]

end Scans

section Examples

/-- A folder with one video. -/
def showDrive : RemoteTree where
  entries :=
    [⟨⟨"s", "Show".toList, 0, 0, 0⟩, "0"⟩, ⟨⟨"v", "a.mkv".toList, 1, 1, 0⟩, "s"⟩]
  depth := fun fid => if fid = "s" then 1 else if fid = "v" then 2 else 0
  fid_nodup := by decide
  fid_ne_root := by decide
  fid_stripped := by decide
  parent := by decide
  depth_root := by decide
  depth_entry := by decide

def davConfig : WebdavConfig where
  mountPath := "/dav".toList
  username := []
  password := []
  rooted := rfl
  mount_safe := forall_mem_of_all (by decide)
  username_noSlash := by decide
  password_noSlash := by decide

def noChecks : NetlocChecks := ⟨fun _ => none, fun _ => none⟩

theorem showDrive_wellNamed : WellNamed showDrive ampersand :=
  ⟨⟨by decide +kernel, by decide +kernel⟩, by decide +kernel⟩

theorem noChecks_accepts : checkNetloc noChecks (davConfig.netloc nasBase.netloc) = .ok () :=
  checkNetloc_of_ascii noChecks (by decide) (by decide) (by decide)

/-- The scan of the folder by its path. -/
theorem urlTarget_byPath :
    urlTarget showDrive ampersand noChecks davConfig nasBase
      ⟨"v", "a.mkv".toList, "Show/a.mkv".toList, 0, 1⟩ = some "v" := by
  have hscan : (ScanCall.directory "Show".toList).run showDrive ampersand {} =
      some ⟨"s", "Show".toList, [⟨"v", "a.mkv".toList, "Show/a.mkv".toList, 0, 1⟩]⟩ := by
    decide +kernel
  refine (urlTarget_iff showDrive_wellNamed noChecks_accepts hscan List.mem_cons_self).mpr ?_
  have hbelow : wayBelow showDrive "s" "v" = [⟨⟨"v", "a.mkv".toList, 1, 1, 0⟩, "s"⟩] := by
    decide +kernel
  have hpresent : Present showDrive "s" := .inr ⟨_, List.mem_cons_self, rfl⟩
  have hfound : (showDrive.getFileByPath ampersand "Show".toList).map (·.fid) = some "s" := by
    decide +kernel
  have hleads : Leads showDrive ampersand (components "Show".toList) (showDrive.wayTo "s") :=
    (getFileByPath_leads_iff hpresent).mp hfound
  have hname : ∀ x ∈ showDrive.before ⟨⟨"v", "a.mkv".toList, 1, 1, 0⟩, "s"⟩,
      Html.unescape ampersand (name ampersand x) ≠ "a.mkv".toList := by
    decide +kernel
  rw [LedBack, if_neg (by decide), hbelow]
  exact ⟨hleads, List.forall_mem_singleton.mpr hname⟩

/-- The scan of the folder by its id. -/
theorem urlTarget_lost :
    WellNamed showDrive ampersand ∧
      ¬ ∀ call scan info, ScanCall.run showDrive ampersand {} call = some scan → info ∈ scan.files →
        urlTarget showDrive ampersand noChecks davConfig nasBase info = some info.id := by
  refine ⟨showDrive_wellNamed, fun h => ?_⟩
  have htarget := h (.fromQuark "s") ⟨"s", [], [⟨"v", "a.mkv".toList, "a.mkv".toList, 0, 1⟩]⟩
    ⟨"v", "a.mkv".toList, "a.mkv".toList, 0, 1⟩ (by decide +kernel) List.mem_cons_self
  rw [urlTarget_eq noChecks_accepts] at htarget
  exact absurd htarget (by decide +kernel)

end Examples

end SmartMedia.Strm
