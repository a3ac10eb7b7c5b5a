import SmartMedia.Library.PartialRun
import SmartMedia.Media.QuarkService
import SmartMedia.Media.StrmAgreement

/-!
# Where generated STRM files land

`_get_all_files` and `_generate_single_strm` for any names the remote side sends. The
generating tasks run concurrently under a semaphore; each is cut where it waits for the
address of its video. The operating system may refuse to make a directory or to open a
file at any moment. Directories are known by their normalised paths; there are no links.
-/
namespace SmartMedia.Media

/-- `f"{remote_path}/{file_name}" if remote_path else file_name`, for any name. -/
def joinName (remotePath name : Path) : Path :=
  if remotePath ≠ [] then remotePath ++ '/' :: name else name

/-- An entry of `_get_all_files`. -/
structure ListedInfo where
  id : String
  name : Path
  remotePath : Path
  size : ℕ
  category : ℤ
  deriving DecidableEq, Repr

/-- `_get_all_files`. -/
def listAllFiles (html5 : Path → Option Path) (onlyVideo recursive : Bool) :
    Path → Remote → List ListedInfo
  | _, .silent => []
  | remotePath, .answers pages below =>
      (getFiles html5 false 100 1 pages).zipIdx.flatMap fun (file, i) =>
        let current := joinName remotePath file.fileName
        if file.isDir then
          if recursive then listAllFiles html5 onlyVideo recursive current (below i) else []
        else if onlyVideo = true ∧ file.category ≠ 1 then []
        else [⟨file.fid, file.fileName, current, file.size, file.category⟩]

/-- The settings of an `STRMGenerator` and of one call of `generate_strm_files`. -/
structure StrmRun where
  cwd : Path := []
  outputDir : Path
  overwriteExisting : Bool := false
  remotePath : Path := []
  onlyVideo : Bool := true
  maxFiles : ℤ := 0
  recursive : Bool := true
  concurrentLimit : ℤ := 5

inductive Phase where
  | waiting | prepared | done
  deriving DecidableEq, Repr

structure StrmTask where
  info : ListedInfo
  phase : Phase := .waiting
  deriving DecidableEq, Repr

/-- The directories and files, the tasks, and as history variables the directories made
and the files written by the tasks. -/
structure Generation (β : Type) where
  dirs : Finset (List Path)
  files : FileMap (List Path) β
  tasks : List StrmTask
  created : List (List Path) := []
  written : List (List Path) := []

/-- What one task does between two waits, and what it is answered. -/
inductive StrmAction (β : Type) where
  /-- up to the request of the address; `made` is how many directories could be made -/
  | start (i : ℕ) (made : Option ℕ)
  /-- the rest, with the address unless the request or `open` fails -/
  | finish (i : ℕ) (url : Option β)

/-- A path and all paths on the way to it. -/
def waypoints (parts : List Path) : List (List Path) := parts.inits.map normalize

namespace StrmRun
variable {β : Type} (run : StrmRun)

/-- The parts of the output directory, seen from the root. -/
def base : List Path :=
  (if run.outputDir.head? = some '/' then [] else components run.cwd) ++
    STRMGenerator.pathParts run.outputDir

/-- The parts of `output_dir / f"{remote_path}.strm"`. -/
def strmParts (remotePath : Path) : List Path :=
  let file := remotePath ++ ".strm".toList
  (if file.head? = some '/' then [] else run.base) ++ STRMGenerator.pathParts file

/-- The files of `generate_strm_files`. -/
def infos (html5 : Path → Option Path) (remote : Remote) : List ListedInfo :=
  let all := listAllFiles html5 run.onlyVideo run.recursive run.remotePath remote
  if 0 < run.maxFiles ∧ run.maxFiles < all.length then all.take run.maxFiles.toNat else all

/-- After the constructor has made the output directory. -/
def initial (html5 : Path → Option Path) (remote : Remote) (dirs : Finset (List Path))
    (files : FileMap (List Path) β) : Generation β where
  dirs := dirs ∪ (waypoints run.base).toFinset
  files
  tasks := (run.infos html5 remote).map (⟨·, .waiting⟩)

/-- `asyncio.Semaphore(concurrent_limit)`. -/
def permits : ℕ := if run.concurrentLimit ≤ 0 then 1 else run.concurrentLimit.toNat

/-- `strm_path.exists()`, where the system follows `..` through directories only. -/
def found (s : Generation β) (parts : List Path) : Bool :=
  (waypoints parts.dropLast).all (· ∈ s.dirs) &&
    (normalize parts ∈ s.files || normalize parts ∈ s.dirs)

/-- `mkdir(parents=True, exist_ok=True)`, as far as these directories. -/
def makeDirectories (s : Generation β) (ways : List (List Path)) : Generation β :=
  { s with
    dirs := s.dirs ∪ ways.toFinset
    created := s.created ++ ways.filter (· ∉ s.dirs) }

def setPhase (s : Generation β) (i : ℕ) (task : StrmTask) (phase : Phase) : Generation β :=
  { s with tasks := s.tasks.set i { task with phase } }

def step (s : Generation β) : StrmAction β → Option (Generation β)
  | .start i made => do
      let task ← s.tasks[i]?
      let parts := run.strmParts task.info.remotePath
      if task.phase ≠ .waiting ∨ run.permits ≤ s.tasks.countP (·.phase = .prepared) then none
      else if found s parts = true ∧ run.overwriteExisting = false then
        some (setPhase s i task .done)
      else match made with
        | none =>
            some (setPhase (makeDirectories s (waypoints parts.dropLast)) i task .prepared)
        | some n =>
            some (setPhase (makeDirectories s ((waypoints parts.dropLast).take n)) i task .done)
  | .finish i url => do
      let task ← s.tasks[i]?
      let path := normalize (run.strmParts task.info.remotePath)
      if task.phase ≠ .prepared then none
      else match url with
        | none => some (setPhase s i task .done)
        | some text =>
            -- a directory cannot be opened for writing
            if path ∈ s.dirs then some (setPhase s i task .done)
            else some (setPhase { s with
              files := s.files.insert path text
              written := s.written ++ [path] } i task .done)

end StrmRun

/-- A file the remote side lists, with the names of the directories above it. -/
structure ListedFile where
  parents : List Path
  file : FileModel
  deriving DecidableEq, Repr

/-- The files of the tree of answers, in their order. -/
def Remote.listing (html5 : Path → Option Path) (recursive : Bool) (parents : List Path) :
    Remote → List ListedFile
  | .silent => []
  | .answers pages below =>
      (getFiles html5 false 100 1 pages).zipIdx.flatMap fun (file, i) =>
        if file.isDir then
          if recursive then (below i).listing html5 recursive (parents ++ [file.fileName]) else []
        else [⟨parents, file⟩]

/-- The names joined with slashes after the remote path. -/
def ListedFile.path (remotePath : Path) (f : ListedFile) : Path :=
  (f.parents ++ [f.file.fileName]).foldl joinName remotePath

def ListedFile.info (remotePath : Path) (f : ListedFile) : ListedInfo :=
  ⟨f.file.fid, f.file.fileName, f.path remotePath, f.file.size, f.file.category⟩

namespace StrmRun
variable {β : Type} {run : StrmRun} {html5 : Path → Option Path}

/-- The listed files the run generates for. -/
def chosen (run : StrmRun) (html5 : Path → Option Path) (remote : Remote) : List ListedFile :=
  let wanted := (remote.listing html5 run.recursive []).filter fun f =>
    !run.onlyVideo || f.file.category = 1
  if 0 < run.maxFiles ∧ run.maxFiles < wanted.length then wanted.take run.maxFiles.toNat
  else wanted

theorem listAllFiles_eq (onlyVideo recursive : Bool) (remotePath : Path) (parents : List Path)
    (remote : Remote) :
    listAllFiles html5 onlyVideo recursive (parents.foldl joinName remotePath) remote =
      ((remote.listing html5 recursive parents).filter fun f =>
        !onlyVideo || f.file.category = 1).map (ListedFile.info remotePath) := by
  induction remote generalizing parents with
  | silent => rfl
  | answers pages below ih =>
      rw [listAllFiles, Remote.listing, List.filter_flatMap, List.map_flatMap]
      refine congrArg (fun f => List.flatMap f _) (funext fun ⟨file, i⟩ => ?_)
      have hpath : joinName (parents.foldl joinName remotePath) file.fileName =
          (parents ++ [file.fileName]).foldl joinName remotePath := by
        rw [List.foldl_append]
        rfl
      dsimp only
      rw [hpath]
      cases file.isDir with
      | true =>
          cases recursive with
          | true => exact ih i (parents ++ [file.fileName])
          | false => rfl
      | false =>
          by_cases hc : onlyVideo = true ∧ file.category ≠ 1
          · rw [if_neg Bool.false_ne_true, if_neg Bool.false_ne_true, if_pos hc, List.filter_cons,
              if_neg (by simp [hc.1, hc.2])]
            rfl
          · rw [if_neg Bool.false_ne_true, if_neg Bool.false_ne_true, if_neg hc, List.filter_cons,
              if_pos (by cases onlyVideo <;> simp_all)]
            rfl

theorem infos_eq (remote : Remote) :
    run.infos html5 remote = (run.chosen html5 remote).map (ListedFile.info run.remotePath) := by
  have hall := @listAllFiles_eq html5 run.onlyVideo run.recursive run.remotePath [] remote
  rw [List.foldl_nil] at hall
  rw [infos, chosen, hall, List.length_map]
  split_ifs
  · rw [List.map_take]
  · rfl

/-- Inside the output directory, or on the way to it. -/
def Passable (base p : List Path) : Prop := normalize base <+: p ∨ p ∈ waypoints base

/-- The path enters no directory but those on the way to the output directory and inside,
and ends there. -/
def Remains (base parts : List Path) : Prop := ∀ p ∈ waypoints parts, Passable base p

instance (base p : List Path) : Decidable (Passable base p) :=
  inferInstanceAs (Decidable (_ ∨ _))

instance (base parts : List Path) : Decidable (Remains base parts) :=
  inferInstanceAs (Decidable (∀ p ∈ waypoints parts, Passable base p))

section Paths
variable {base parts p : List Path}

theorem mem_waypoints : p ∈ waypoints parts ↔ ∃ q, q <+: parts ∧ normalize q = p := by
  rw [waypoints, List.mem_map]
  simp only [List.mem_inits]

theorem normalize_mem_waypoints (parts : List Path) : normalize parts ∈ waypoints parts :=
  mem_waypoints.mpr ⟨parts, List.prefix_rfl, rfl⟩

theorem mem_waypoints_dropLast (h : p ∈ waypoints parts.dropLast) : p ∈ waypoints parts := by
  obtain ⟨q, hq, hp⟩ := mem_waypoints.mp h
  exact mem_waypoints.mpr ⟨q, hq.trans (List.dropLast_prefix parts), hp⟩

/-- The ways to a path are those to its directory and the path itself. -/
theorem waypoints_cases (h : p ∈ waypoints parts) :
    p ∈ waypoints parts.dropLast ∨ p = normalize parts := by
  obtain ⟨q, hq, rfl⟩ := mem_waypoints.mp h
  by_cases hparts : q = parts
  · exact .inr (congrArg normalize hparts)
  · refine .inl (mem_waypoints.mpr ⟨q, ?_, rfl⟩)
    have hlength : q.length ≠ parts.length := fun he => hparts (hq.eq_of_length he)
    have hle := hq.length_le
    rw [List.prefix_iff_eq_take] at hq
    rw [List.prefix_iff_eq_take, List.dropLast_eq_take, List.take_take, Nat.min_eq_left (by omega)]
    exact hq

end Paths

/-- What a step does: one task goes on, with directories on the way to its path made, or
with its path written where no directory is. -/
theorem step_cases {s s' : Generation β} {a : StrmAction β} (h : run.step s a = some s') :
    ∃ i task phase, s.tasks[i]? = some task ∧
      (s' = setPhase s i task phase ∨
        (∃ ways : List (List Path),
          (∀ p ∈ ways, p ∈ waypoints (run.strmParts task.info.remotePath).dropLast) ∧
            s' = setPhase (makeDirectories s ways) i task phase) ∨
        ∃ text, normalize (run.strmParts task.info.remotePath) ∉ s.dirs ∧
          s' = setPhase { s with
            files := s.files.insert (normalize (run.strmParts task.info.remotePath)) text
            written := s.written ++ [normalize (run.strmParts task.info.remotePath)] }
              i task phase) := by
  cases a with
  | start i made =>
      obtain ⟨task, htask, hs⟩ := Option.bind_eq_some_iff.mp h
      dsimp only at hs
      split_ifs at hs with hgo hskip
      · cases hs
        exact ⟨i, task, .done, htask, .inl rfl⟩
      · cases made with
        | none =>
            cases hs
            exact ⟨i, task, .prepared, htask, .inr (.inl ⟨_, fun _ hp => hp, rfl⟩)⟩
        | some n =>
            cases hs
            exact ⟨i, task, .done, htask, .inr (.inl ⟨_, fun _ hp => List.mem_of_mem_take hp, rfl⟩)⟩
  | finish i url =>
      obtain ⟨task, htask, hs⟩ := Option.bind_eq_some_iff.mp h
      cases url with
      | none =>
          dsimp only at hs
          split_ifs at hs
          cases hs
          exact ⟨i, task, .done, htask, .inl rfl⟩
      | some text =>
          dsimp only at hs
          split_ifs at hs with hgo hdir
          · cases hs
            exact ⟨i, task, .done, htask, .inl rfl⟩
          · cases hs
            exact ⟨i, task, .done, htask, .inr (.inr ⟨text, hdir, rfl⟩)⟩

/-- Everything made or written so far is inside the output directory. -/
structure Contained (run : StrmRun) (s : Generation β) : Prop where
  tasks : ∀ task ∈ s.tasks, Remains run.base (run.strmParts task.info.remotePath)
  base : ∀ p ∈ waypoints run.base, p ∈ s.dirs
  created : ∀ p ∈ s.created, normalize run.base <+: p
  written : ∀ p ∈ s.written, normalize run.base <+: p

namespace Contained
variable {s s' : Generation β} {a : StrmAction β} {i : ℕ} {task : StrmTask} {phase : Phase}

theorem setPhase (h : Contained run s) (ht : s.tasks[i]? = some task) :
    Contained run (setPhase s i task phase) := by
  refine ⟨fun t hmem => ?_, h.base, h.created, h.written⟩
  rcases List.mem_or_eq_of_mem_set hmem with hmem | rfl
  · exact h.tasks t hmem
  · exact h.tasks task (List.mem_of_getElem? ht)

theorem makeDirectories {ways : List (List Path)} (h : Contained run s)
    (hways : ∀ p ∈ ways, Passable run.base p) : Contained run (makeDirectories s ways) := by
  refine ⟨h.tasks, fun p hp => Finset.mem_union_left _ (h.base p hp), fun p hp => ?_, h.written⟩
  rcases List.mem_append.mp hp with hp | hp
  · exact h.created p hp
  · obtain ⟨hway, hnew⟩ := List.mem_filter.mp hp
    rcases hways p hway with hin | hbase
    · exact hin
    · exact absurd (h.base p hbase) (of_decide_eq_true hnew)

theorem write {path : List Path} {text : β} (h : Contained run s)
    (hpath : Passable run.base path) (hdir : path ∉ s.dirs) :
    Contained run
      { s with files := s.files.insert path text, written := s.written ++ [path] } := by
  refine ⟨h.tasks, h.base, h.created, fun p hp => ?_⟩
  rcases List.mem_append.mp hp with hp | hp
  · exact h.written p hp
  · rw [List.mem_singleton.mp hp]
    rcases hpath with hin | hbase
    · exact hin
    · exact absurd (h.base path hbase) hdir

theorem step (h : Contained run s) (hstep : run.step s a = some s') : Contained run s' := by
  obtain ⟨i, task, phase, ht, hcases⟩ := step_cases hstep
  have hremains := h.tasks task (List.mem_of_getElem? ht)
  rcases hcases with rfl | ⟨ways, hways, rfl⟩ | ⟨text, hdir, rfl⟩
  · exact h.setPhase ht
  · exact (h.makeDirectories fun p hp => hremains p (mem_waypoints_dropLast (hways p hp))).setPhase ht
  · exact (h.write (hremains _ (normalize_mem_waypoints _)) hdir).setPhase ht

end Contained

/-- Names below the output directory remain there. -/
theorem remains_below {base parts : List Path} (h : ∀ p ∈ parts, Plain p) :
    Remains base (base ++ parts) := by
  intro p hp
  obtain ⟨q, hq, rfl⟩ := mem_waypoints.mp hp
  rcases List.prefix_or_prefix_of_prefix hq (List.prefix_append base parts) with hbase | ⟨below, rfl⟩
  · exact .inr (mem_waypoints.mpr ⟨q, hbase, rfl⟩)
  · have hbelow : below <+: parts := (List.prefix_append_right_inj base).mp hq
    exact .inl ⟨below, (normalize_append base fun p hp => h p (hbelow.subset hp)).symm⟩

theorem foldl_joinName {names : List Path} {p : Path} (h : ∀ n ∈ names, Plain n) (hp : p ≠ []) :
    components (names.foldl joinName p) = components p ++ names ∧
      (names.foldl joinName p).head? = p.head? := by
  induction names generalizing p with
  | nil => exact ⟨(List.append_nil _).symm, rfl⟩
  | cons name names ih =>
      have hname := h name List.mem_cons_self
      have hjoin : joinName p name = p ++ '/' :: name := if_pos hp
      obtain ⟨hparts, hhead⟩ := @ih (joinName p name) (fun n hn => h n (List.mem_cons_of_mem _ hn))
        (by rw [hjoin]; simp)
      refine ⟨?_, ?_⟩
      · rw [List.foldl_cons, hparts, hjoin, components_append, components_plain hname,
          List.append_assoc, List.singleton_append]
      · rw [List.foldl_cons, hhead, hjoin, List.head?_append_of_ne_nil _ hp]

/-- A file whose names are all single components remains in the output directory. -/
theorem plain_names_remain {f : ListedFile} (hremote : run.remotePath = [])
    (h : ∀ n ∈ f.parents ++ [f.file.fileName], Plain n) :
    Remains run.base (run.strmParts (f.path run.remotePath)) := by
  let last := f.file.fileName ++ ".strm".toList
  have hlast : Plain last := .append_strm (h _ (by simp)).noSlash
  have hnames : ∀ n ∈ f.parents ++ [last], Plain n := by
    intro n hn
    rcases List.mem_append.mp hn with hn | hn
    · exact h n (List.mem_append_left _ hn)
    · rw [List.mem_singleton.mp hn]
      exact hlast
  have htext : f.path run.remotePath ++ ".strm".toList = (f.parents ++ [last]).foldl joinName [] := by
    rw [ListedFile.path, hremote, List.foldl_append, List.foldl_append, List.foldl_cons,
      List.foldl_cons, List.foldl_nil, List.foldl_nil, joinName, joinName]
    split_ifs
    · rw [List.append_assoc]
      rfl
    · rfl
  obtain ⟨first, rest, hcons⟩ := List.exists_cons_of_ne_nil
    (show f.parents ++ [last] ≠ [] by simp)
  rw [hcons] at htext hnames
  have hfirst := hnames first List.mem_cons_self
  have hjoin : joinName [] first = first := rfl
  obtain ⟨hparts, hhead⟩ := foldl_joinName (fun n hn => hnames n (List.mem_cons_of_mem _ hn))
    hfirst.nonempty
  rw [components_plain hfirst, List.singleton_append] at hparts
  have hrelative : first.head? ≠ some '/' := by
    intro he
    obtain ⟨tail, htail⟩ := List.head?_eq_some_iff.mp he
    exact hfirst.noSlash (by rw [htail]; exact List.mem_cons_self)
  have hkept : STRMGenerator.pathParts (rest.foldl joinName first) = first :: rest := by
    rw [STRMGenerator.pathParts, hparts]
    exact List.filter_eq_self.mpr fun n hn => decide_eq_true (hnames n hn).notDot
  rw [strmParts, htext, List.foldl_cons, hjoin, hhead, if_neg hrelative, hkept]
  exact remains_below hnames

/-- Every directory made and every file written by any run is inside the output directory. -/
def AlwaysInside (β : Type) (run : StrmRun) (html5 : Path → Option Path) (remote : Remote) : Prop :=
  ∀ (dirs : Finset (List Path)) (files : FileMap (List Path) β) (actions : List (StrmAction β))
    (s : Generation β),
    PartialRun.exec run.step (run.initial html5 remote dirs files) actions = some s →
      (∀ p ∈ s.created, normalize run.base <+: p) ∧ ∀ p ∈ s.written, normalize run.base <+: p

theorem initial_contained {remote : Remote} (h : ∀ f ∈ run.chosen html5 remote,
    Remains run.base (run.strmParts (f.path run.remotePath))) (dirs : Finset (List Path))
    (files : FileMap (List Path) β) :
    Contained run (run.initial html5 remote dirs files) := by
  refine ⟨fun task ht => ?_, fun p hp => ?_, fun p hp => (by cases hp), fun p hp => (by cases hp)⟩
  · obtain ⟨info, hinfo, rfl⟩ := List.mem_map.mp ht
    rw [infos_eq] at hinfo
    obtain ⟨f, hf, rfl⟩ := List.mem_map.mp hinfo
    exact h f hf
  · exact Finset.mem_union_right _ (List.mem_toFinset.mpr hp)

section Breach
variable {remote : Remote} {f : ListedFile}

/-- Nothing but the way to the output directory is there. -/
theorem mem_initial_dirs {p : List Path} :
    p ∈ (run.initial (β := β) html5 remote ∅ ∅).dirs ↔ p ∈ waypoints run.base := by
  rw [initial, Finset.empty_union, List.mem_toFinset]

/-- The task of a chosen file makes the directories on its way. -/
theorem start_makes (hf : f ∈ run.chosen html5 remote)
    (hout : ¬ Remains run.base (run.strmParts (f.path run.remotePath))) :
    ∃ i, (run.initial (β := β) html5 remote ∅ ∅).tasks[i]? =
        some ⟨f.info run.remotePath, .waiting⟩ ∧
      run.step (run.initial (β := β) html5 remote ∅ ∅) (.start i none) =
        some (setPhase (makeDirectories (run.initial html5 remote ∅ ∅)
          (waypoints (run.strmParts (f.path run.remotePath)).dropLast)) i
            ⟨f.info run.remotePath, .waiting⟩ .prepared) := by
  obtain ⟨i, hi⟩ := List.mem_iff_getElem?.mp hf
  have htask : (run.initial (β := β) html5 remote ∅ ∅).tasks[i]? =
      some ⟨f.info run.remotePath, .waiting⟩ := by
    rw [initial, infos_eq, List.map_map, List.getElem?_map, hi]
    rfl
  have hrunning : ¬ run.permits ≤
      (run.initial (β := β) html5 remote ∅ ∅).tasks.countP (·.phase = .prepared) := by
    have hnone : (run.initial (β := β) html5 remote ∅ ∅).tasks.countP (·.phase = .prepared) = 0 := by
      refine List.countP_eq_zero.mpr fun task ht => ?_
      obtain ⟨info, -, rfl⟩ := List.mem_map.mp ht
      exact Bool.false_ne_true
    rw [hnone, permits]
    split_ifs with hlimit
    · decide
    · omega
  have hfound : found (run.initial (β := β) html5 remote ∅ ∅)
      (run.strmParts (f.path run.remotePath)) = false := by
    by_contra hthere
    rw [Bool.not_eq_false, found, Bool.and_eq_true, List.all_eq_true] at hthere
    obtain ⟨hways, hend⟩ := hthere
    refine hout fun p hp => .inr ?_
    rcases waypoints_cases hp with hp | rfl
    · exact mem_initial_dirs.mp (of_decide_eq_true (hways p hp))
    · rcases (Bool.or_eq_true _ _).mp hend with hfile | hdir
      · exact absurd (of_decide_eq_true hfile) Finmap.notMem_empty
      · exact mem_initial_dirs.mp (of_decide_eq_true hdir)
  refine ⟨i, htask, Option.bind_eq_some_iff.mpr ⟨_, htask, ?_⟩⟩
  dsimp only
  rw [if_neg (not_or.mpr ⟨fun h => h rfl, hrunning⟩), if_neg]
  · rfl
  · intro hskip
    have hfound' : found (run.initial html5 remote ∅ ∅)
      (run.strmParts (f.info run.remotePath).remotePath) = false := hfound
    rw [hfound'] at hskip
    exact Bool.false_ne_true hskip.1

/-- A chosen file whose path does not remain is a breach: of a directory on its way or of
its own path. -/
theorem breach [Nonempty β] (hf : f ∈ run.chosen html5 remote)
    (hall : AlwaysInside β run html5 remote) :
    Remains run.base (run.strmParts (f.path run.remotePath)) := by
  by_contra hout
  obtain ⟨i, htask, hstart⟩ := @start_makes β run html5 remote f hf hout
  let parts := run.strmParts (f.path run.remotePath)
  let made : Generation β := setPhase (makeDirectories (run.initial html5 remote ∅ ∅)
    (waypoints parts.dropLast)) i ⟨f.info run.remotePath, .waiting⟩ .prepared
  have hcreated : ∀ p ∈ waypoints parts.dropLast, Passable run.base p := by
    intro p hp
    by_cases hbase : p ∈ waypoints run.base
    · exact .inr hbase
    · refine .inl ((hall ∅ ∅ [.start i none] made ?_).1 p ?_)
      · exact PartialRun.exec_cons_eq_some.mpr ⟨made, hstart, rfl⟩
      · refine List.mem_append_right _ (List.mem_filter.mpr ⟨hp, decide_eq_true ?_⟩)
        exact fun hdir => hbase (mem_initial_dirs.mp hdir)
  refine hout fun p hp => ?_
  rcases waypoints_cases hp with hp | rfl
  · exact hcreated p hp
  · by_cases hdir : normalize parts ∈ made.dirs
    · -- a directory of that name is on the way
      rcases Finset.mem_union.mp hdir with hdir | hdir
      · exact .inr (mem_initial_dirs.mp hdir)
      · exact hcreated _ (List.mem_toFinset.mp hdir)
    · obtain ⟨text⟩ := ‹Nonempty β›
      have hprepared : made.tasks[i]? = some ⟨f.info run.remotePath, .prepared⟩ :=
        List.getElem?_set_self (List.getElem?_eq_some_iff.mp htask).1
      let written : Generation β := setPhase { made with
        files := made.files.insert (normalize parts) text
        written := made.written ++ [normalize parts] } i ⟨f.info run.remotePath, .prepared⟩ .done
      have hfinish : run.step made (.finish i (some text)) = some written := by
        refine Option.bind_eq_some_iff.mpr ⟨_, hprepared, ?_⟩
        dsimp only
        rw [if_neg fun h => h rfl]
        exact if_neg hdir
      refine .inl ((hall ∅ ∅ [.start i none, .finish i (some text)] written ?_).2 _ ?_)
      · exact PartialRun.exec_cons_eq_some.mpr
          ⟨made, hstart, PartialRun.exec_cons_eq_some.mpr ⟨written, hfinish, rfl⟩⟩
      · exact List.mem_append_right _ (List.mem_singleton_self _)

end Breach

/-- For every remote side, output directory and setting: nothing is made or written outside
the output directory exactly if the path of every chosen file, joined from the names as
they are after unescaping, remains there. -/
theorem inside_output_iff [Nonempty β] (run : StrmRun) (html5 : Path → Option Path)
    (remote : Remote) :
    AlwaysInside β run html5 remote ↔
      ∀ f ∈ run.chosen html5 remote, Remains run.base (run.strmParts (f.path run.remotePath)) := by
  constructor
  · exact fun hall f hf => breach hf hall
  · intro h dirs files actions s hexec
    have hs : Contained run s := PartialRun.invariant_of_step (fun _ _ _ hI hstep => hI.step hstep)
      (initial_contained h dirs files) hexec
    exact ⟨hs.created, hs.written⟩

end StrmRun

namespace StrmRun

def toOutput : StrmRun := { outputDir := "/srv/strm".toList }

/-- A root directory with one video. -/
def oneVideo (name : String) : Remote :=
  .answers [some { list := [{ fid := "1", fileName := name.toList, category := 1 }], total := 1 }]
    fun _ => .silent

def noNames (_ : Path) : Option Path := none

theorem video_inside :
    AlwaysInside ℕ toOutput noNames (oneVideo "a&#32;b.mkv") := by
  refine (inside_output_iff toOutput noNames _).mpr ?_
  decide +kernel

/-- The slashes of the name come with the unescaping. -/
theorem video_outside :
    ((PartialRun.exec toOutput.step (toOutput.initial noNames (oneVideo "..&#47;..&#47;a") ∅ ∅)
        [.start 0 none, .finish 0 (some 7)]).map fun s => s.written) = some [["a.strm".toList]] ∧
      ¬ AlwaysInside ℕ toOutput noNames (oneVideo "..&#47;..&#47;a") := by
  have hrun : ((PartialRun.exec toOutput.step
      (toOutput.initial noNames (oneVideo "..&#47;..&#47;a") ∅ ∅)
        [.start 0 none, .finish 0 (some 7)]).map fun s => s.written) =
      some [["a.strm".toList]] := by
    decide +kernel
  refine ⟨hrun, fun hall => ?_⟩
  obtain ⟨s, hexec, hwritten⟩ := Option.map_eq_some_iff.mp hrun
  have hinside := (hall ∅ ∅ _ s hexec).2 ["a.strm".toList] (by rw [hwritten]; simp)
  exact absurd hinside (by decide)

end StrmRun

end SmartMedia.Media
