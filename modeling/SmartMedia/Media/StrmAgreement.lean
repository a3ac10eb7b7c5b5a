import Mathlib.Algebra.GroupWithZero.Nat
import Mathlib.Algebra.Order.BigOperators.Group.List
import Mathlib.Algebra.Order.Group.Nat
import SmartMedia.Media.PathComponents
import SmartMedia.Media.StrmValidator

/-!
# What a fast scan reports after generating

The generator appends `.strm` to a remote path, the validator replaces the extension;
the generator chooses files by category, the validator by extension and size. Each of
the two recursions is described by the files of the tree in their order, and then the
two sets of paths are compared.
-/
namespace SmartMedia.Media

/-- A file of a remote tree with the directories above it. -/
structure RemoteFile where
  parents : List FileName
  fid : String
  name : FileName
  size : ℕ
  category : ℤ
  deriving DecidableEq, Repr

def RemoteFile.path (f : RemoteFile) : List FileName := f.parents ++ [f.name]

mutual

def nodeEntries (parents : List FileName) : RemoteNode → List RemoteFile
  | .file fid name size category => [⟨parents, fid, name, size, category⟩]
  | .dir _ name children => entries (parents ++ [name]) children

/-- The files of a tree, below the directories `parents`. -/
def entries (parents : List FileName) : List RemoteNode → List RemoteFile
  | [] => []
  | node :: nodes => nodeEntries parents node ++ entries parents nodes

end

/-- An absolute path. -/
def absolutePath (names : List FileName) : Path := names.flatMap fun name => '/' :: name.chars

mutual

def encodeNode (path : Path) : RemoteNode → Json
  | .file _ name size _ => .obj [(name.chars, .obj [
      ("name".toList, .str (path ++ '/' :: name.chars)),
      ("size".toList, .num size),
      ("is_dir".toList, .bool false)])]
  | .dir _ name children => .obj [(name.chars, .obj [
      ("name".toList, .str (path ++ '/' :: name.chars)),
      ("is_dir".toList, .bool true),
      ("children".toList, .arr (encodeNodes (path ++ '/' :: name.chars) children))])]

def encodeNodes (path : Path) : List RemoteNode → List Json
  | [] => []
  | node :: nodes => encodeNode path node :: encodeNodes path nodes

end

/-- The tree in the form of the validator's cache file: each file and directory under its
name, with its absolute path. -/
def cachedTree (base : List FileName) (nodes : List RemoteNode) : Json :=
  .obj [("children".toList, .arr (encodeNodes (absolutePath base) nodes))]

section AbsolutePaths
variable {a : Path}

theorem absolutePath_concat (names : List FileName) (name : FileName) :
    absolutePath (names ++ [name]) = absolutePath names ++ '/' :: name.chars := by
  rw [absolutePath, List.flatMap_append, List.flatMap_singleton, absolutePath]

/-- The components of an absolute path with a last component of its own. -/
theorem components_absolutePath (names : List FileName) (ha : Plain a) :
    components (absolutePath names ++ '/' :: a) = names.map (·.chars) ++ [a] := by
  induction names with
  | nil => exact (components_slash (b := a)).trans (components_plain ha)
  | cons name names ih =>
      obtain ⟨rest, hrest⟩ : ∃ rest, absolutePath names ++ '/' :: a = '/' :: rest := by
        cases names with
        | nil => exact ⟨a, rfl⟩
        | cons first others => exact ⟨_, rfl⟩
      have hpath : absolutePath (name :: names) ++ '/' :: a =
          '/' :: (name.chars ++ '/' :: rest) := by
        rw [← hrest, absolutePath, absolutePath, List.flatMap_cons, List.append_assoc]
        rfl
      rw [hpath, components_slash, components_cons name.plain, ← components_slash (b := rest),
        ← hrest, ih]
      rfl

end AbsolutePaths

/-- The path of a directory as the generator passes it on. -/
def joinNames (names : List FileName) : Path := names.foldl childPath []

theorem joinNames_concat (names : List FileName) (name : FileName) :
    joinNames (names ++ [name]) = childPath (joinNames names) name := by
  rw [joinNames, joinNames, List.foldl_append]
  rfl

theorem joinNames_cons (name : FileName) (names : List FileName) :
    joinNames (name :: names) = name.chars ++ absolutePath names := by
  induction names using List.reverseRecOn with
  | nil => exact (List.append_nil _).symm
  | append_singleton names last ih =>
      rw [← List.cons_append, joinNames_concat, ih, childPath,
        if_pos (by simp [name.nonempty]), absolutePath_concat, List.append_assoc]

section Generating
variable {β : Type} {cwd : List Path} {outputDir : Path}

/-- Where the generator writes a file of the tree. -/
def writtenPath (cwd : List Path) (outputDir : Path) (above : List FileName) (f : RemoteFile) :
    List Path :=
  resolve cwd outputDir [] ++
    ((above ++ f.parents).map (·.chars) ++ [f.name.chars ++ ".strm".toList])

theorem strmPath_childPath (names : List FileName) (name : FileName) :
    STRMGenerator.strmPath cwd outputDir (childPath (joinNames names) name) =
      resolve cwd outputDir [] ++ (names.map (·.chars) ++ [name.chars ++ ".strm".toList]) := by
  have hlast : Plain (name.chars ++ ".strm".toList) := .append_strm name.noSlash
  have hparts : ∀ p ∈ names.map (·.chars) ++ [name.chars ++ ".strm".toList], Plain p := by
    intro p hp
    rcases List.mem_append.mp hp with hp | hp
    · obtain ⟨n, -, rfl⟩ := List.mem_map.mp hp
      exact n.plain
    · rw [List.mem_singleton.mp hp]
      exact hlast
  have hhead : ∀ (n : FileName) (rest : Path), (n.chars ++ rest).head? ≠ some '/' := by
    intro n rest he
    cases hn : n.chars with
    | nil => exact n.nonempty hn
    | cons c cs =>
        rw [hn] at he
        exact n.noSlash (by rw [hn, Option.some.inj he]; exact List.mem_cons_self)
  rw [STRMGenerator.strmPath]
  cases names with
  | nil =>
      have hfile : childPath (joinNames []) name = name.chars := rfl
      rw [hfile, if_neg (hhead name _), components_plain hlast]
      exact resolve_append cwd outputDir hparts
  | cons first names =>
      have hfile : childPath (joinNames (first :: names)) name ++ ".strm".toList =
          first.chars ++ (absolutePath names ++ '/' :: (name.chars ++ ".strm".toList)) := by
        rw [childPath, if_pos (by simp [joinNames_cons, first.nonempty]), joinNames_cons]
        simp
      obtain ⟨rest, hrest⟩ : ∃ rest,
          absolutePath names ++ '/' :: (name.chars ++ ".strm".toList) = '/' :: rest := by
        cases names with
        | nil => exact ⟨_, rfl⟩
        | cons second others => exact ⟨_, rfl⟩
      rw [hfile, if_neg (hhead first _), hrest, components_cons first.plain,
        ← components_slash (b := rest), ← hrest, components_absolutePath names hlast]
      exact resolve_append cwd outputDir hparts

/-- The files the generator chooses. -/
def generated (onlyVideo : Bool) (nodes : List RemoteNode) : List RemoteFile :=
  (entries [] nodes).filter fun f => !onlyVideo || f.category = 1

def RemoteFile.info (above : List FileName) (f : RemoteFile) : FileInfo :=
  ⟨f.fid, f.name, childPath (joinNames (above ++ f.parents)) f.name, f.size, f.category⟩

mutual

theorem nodeFiles_eq (onlyVideo : Bool) (above parents : List FileName) (node : RemoteNode) :
    STRMGenerator.nodeFiles onlyVideo true (joinNames (above ++ parents)) node =
      ((nodeEntries parents node).filter fun f => !onlyVideo || f.category = 1).map
        (RemoteFile.info above) := by
  cases node with
  | file fid name size category =>
      rw [STRMGenerator.nodeFiles, nodeEntries]
      by_cases hc : onlyVideo = true ∧ category ≠ 1
      · rw [if_pos hc, List.filter_cons, if_neg (by simp [hc.1, hc.2]), List.filter_nil,
          List.map_nil]
      · rw [if_neg hc, List.filter_cons, if_pos ?_, List.filter_nil]
        · rfl
        · cases onlyVideo <;> simp_all
  | dir fid name children =>
      rw [STRMGenerator.nodeFiles, if_pos rfl, nodeEntries, ← joinNames_concat,
        List.append_assoc]
      exact getAllFiles_eq onlyVideo above (parents ++ [name]) children

theorem getAllFiles_eq (onlyVideo : Bool) (above parents : List FileName)
    (nodes : List RemoteNode) :
    STRMGenerator.getAllFiles onlyVideo true (joinNames (above ++ parents)) nodes =
      ((entries parents nodes).filter fun f => !onlyVideo || f.category = 1).map
        (RemoteFile.info above) := by
  cases nodes with
  | nil => rfl
  | cons node nodes =>
      rw [STRMGenerator.getAllFiles, entries, List.filter_append, List.map_append,
        nodeFiles_eq onlyVideo above parents node, getAllFiles_eq onlyVideo above parents nodes]

end

/-- Writing adds exactly the files' paths. -/
theorem mem_generateAll {overwrite : Bool} {videoUrl : FileInfo → β}
    {fs : FileMap (List Path) β} {infos : List FileInfo} {p : List Path} :
    p ∈ (STRMGenerator.generateAll cwd outputDir overwrite videoUrl fs infos).1 ↔
      p ∈ fs ∨ ∃ info ∈ infos, p = STRMGenerator.strmPath cwd outputDir info.remotePath := by
  induction infos generalizing fs with
  | nil => simp [STRMGenerator.generateAll]
  | cons info infos ih =>
      have hone : p ∈ (STRMGenerator.generateSingleStrm cwd outputDir overwrite videoUrl fs
          info).1 ↔ p ∈ fs ∨ p = STRMGenerator.strmPath cwd outputDir info.remotePath := by
        simp only [STRMGenerator.generateSingleStrm]
        split_ifs with hskip
        · refine ⟨.inl, fun h => h.elim id fun he => ?_⟩
          rw [he]
          exact hskip.1
        · rw [Finmap.mem_insert, or_comm]
      show p ∈ (STRMGenerator.generateAll cwd outputDir overwrite videoUrl
        (STRMGenerator.generateSingleStrm cwd outputDir overwrite videoUrl fs info).1 infos).1 ↔ _
      rw [ih, hone, or_assoc]
      simp only [List.exists_mem_cons_iff]

/-- Into an empty directory, without a limit, the generator writes the paths of the files
it chooses. -/
theorem mem_generateStrmFiles {overwrite onlyVideo : Bool} {videoUrl : FileInfo → β}
    {nodes : List RemoteNode} (above : List FileName) {p : List Path} :
    p ∈ (STRMGenerator.generateStrmFiles cwd outputDir overwrite videoUrl ∅ nodes
        (joinNames above) onlyVideo true 0).1 ↔
      ∃ f ∈ generated onlyVideo nodes, p = writtenPath cwd outputDir above f := by
  have hfiles : STRMGenerator.getAllFiles onlyVideo true (joinNames above) nodes =
      (generated onlyVideo nodes).map (RemoteFile.info above) := by
    have hall := getAllFiles_eq onlyVideo above [] nodes
    rwa [List.append_nil] at hall
  show p ∈ (STRMGenerator.generateAll cwd outputDir overwrite videoUrl ∅
    (if 0 < 0 ∧ 0 < (STRMGenerator.getAllFiles onlyVideo true (joinNames above) nodes).length then
      (STRMGenerator.getAllFiles onlyVideo true (joinNames above) nodes).take 0
    else STRMGenerator.getAllFiles onlyVideo true (joinNames above) nodes)).1 ↔ _
  rw [if_neg (by simp), hfiles, mem_generateAll]
  have hpath : ∀ f : RemoteFile, STRMGenerator.strmPath cwd outputDir (f.info above).remotePath =
      writtenPath cwd outputDir above f := fun f => strmPath_childPath _ _
  simp only [List.mem_map, exists_exists_and_eq_and, hpath, Finmap.notMem_empty, false_or]

end Generating

section Splitext
variable {p n : Path}

theorem takeWhile_before_slash {q : Char → Bool} (hq : q '/' = false) (hn : '/' ∉ n) :
    (n ++ '/' :: p).takeWhile q = n.takeWhile q := by
  induction n with
  | nil => rw [List.nil_append, List.takeWhile_cons_of_neg (by simp [hq]), List.takeWhile_nil]
  | cons c cs ih =>
      rw [List.mem_cons, not_or] at hn
      rw [List.cons_append, List.takeWhile_cons, List.takeWhile_cons, ih hn.2]

/-- The part of a name after its last dot or slash. -/
abbrev lastPart (p : Path) : Path := p.reverse.takeWhile fun c => c ≠ '/' && c ≠ '.'

/-- The two ends of `splitext`: there is an extension, or none. -/
theorem splitext_cases (p : Path) :
    (∃ rest, p.reverse.drop (lastPart p).length = '.' :: rest ∧
        (rest.takeWhile (· ≠ '/')).any (· ≠ '.') = true ∧
        splitext p = (rest.reverse, '.' :: (lastPart p).reverse)) ∨
      (∀ rest, p.reverse.drop (lastPart p).length = '.' :: rest →
        (rest.takeWhile (· ≠ '/')).any (· ≠ '.') = false) ∧ splitext p = (p, []) := by
  cases hd : p.reverse.drop (lastPart p).length with
  | nil =>
      refine .inr ⟨fun rest h => (by cases h), ?_⟩
      simp only [splitext, hd]
  | cons c rest =>
      by_cases hc : c = '.'
      · subst hc
        cases hany : (rest.takeWhile (· ≠ '/')).any (· ≠ '.') with
        | true =>
            refine .inl ⟨rest, rfl, hany, ?_⟩
            simp only [splitext, hd]
            exact if_pos hany
        | false =>
            refine .inr ⟨fun rest' h => ?_, ?_⟩
            · obtain rfl : rest = rest' := (List.cons.inj h).2
              exact hany
            · simp only [splitext, hd]
              exact if_neg (by rw [hany]; decide)
      · refine .inr ⟨fun rest' h => absurd (List.cons.inj h).1 hc, ?_⟩
        simp only [splitext, hd]
        split
        · rename_i h
          exact absurd (List.cons.inj h).1 hc
        · rfl

/-- `splitext` looks at the last component only. -/
theorem splitext_append (hn : '/' ∉ n) : splitext (p ++ '/' :: n) =
    (p ++ '/' :: (splitext n).1, (splitext n).2) := by
  have hm : '/' ∉ n.reverse := fun h => hn (List.mem_reverse.mp h)
  have hreverse : (p ++ '/' :: n).reverse = n.reverse ++ '/' :: p.reverse := by simp
  have hlast : lastPart (p ++ '/' :: n) = lastPart n := by
    rw [lastPart, hreverse]
    exact takeWhile_before_slash rfl hm
  have hdrop : (p ++ '/' :: n).reverse.drop (lastPart (p ++ '/' :: n)).length =
      n.reverse.drop (lastPart n).length ++ '/' :: p.reverse := by
    rw [hlast, hreverse]
    exact List.drop_append_of_le_length (List.takeWhile_sublist _).length_le
  have hany : ∀ rest, n.reverse.drop (lastPart n).length = '.' :: rest →
      ((rest ++ '/' :: p.reverse).takeWhile (· ≠ '/')).any (· ≠ '.') =
        (rest.takeWhile (· ≠ '/')).any (· ≠ '.') := by
    intro rest hd
    have hrest : '/' ∉ rest := fun h =>
      hm (List.mem_of_mem_drop (hd ▸ List.mem_cons_of_mem _ h))
    rw [takeWhile_before_slash (by decide) hrest]
  rcases splitext_cases (p ++ '/' :: n) with ⟨rest', hd', hdots', hs'⟩ | ⟨hnone', hs'⟩
  · rw [hdrop] at hd'
    cases hd : n.reverse.drop (lastPart n).length with
    | nil =>
        rw [hd] at hd'
        exact absurd (List.cons.inj hd').1 (by decide)
    | cons c rest =>
        rw [hd, List.cons_append, List.cons.injEq] at hd'
        obtain ⟨rfl, rfl⟩ := hd'
        rw [hany rest hd] at hdots'
        rcases splitext_cases n with ⟨rest', hd'', -, hs⟩ | ⟨hnone, -⟩
        · obtain rfl : rest = rest' := (List.cons.inj (hd.symm.trans hd'')).2
          rw [hs', hs, hlast]
          simp
        · rw [hnone rest hd] at hdots'
          cases hdots'
  · rcases splitext_cases n with ⟨rest, hd, hdots, -⟩ | ⟨-, hs⟩
    · have hfull := hnone' (rest ++ '/' :: p.reverse) (by rw [hdrop, hd]; rfl)
      rw [hany rest hd, hdots] at hfull
      cases hfull
    · rw [hs', hs]

/-- The two parts of a name make up the name. -/
theorem splitext_join (n : Path) : (splitext n).1 ++ (splitext n).2 = n := by
  rcases splitext_cases n with ⟨rest, hd, -, hs⟩ | ⟨-, hs⟩
  · have hparts : lastPart n ++ '.' :: rest = n.reverse := by
      rw [← hd]
      exact List.prefix_iff_eq_append.mp (List.takeWhile_prefix _)
    have hjoin := congrArg List.reverse hparts
    rw [List.reverse_append, List.reverse_cons, List.reverse_reverse] at hjoin
    rw [hs]
    simpa using hjoin
  · rw [hs, List.append_nil]

end Splitext

section Validating
variable {cwd : List Path} {validator : StrmValidator} {lower : Path → Path}

theorem plain_chars (names : List FileName) : ∀ p ∈ names.map (·.chars), Plain p := by
  intro p hp
  obtain ⟨name, -, rfl⟩ := List.mem_map.mp hp
  exact name.plain

theorem resolve_absolutePath {names : List FileName} (hne : names ≠ []) :
    resolve cwd (absolutePath names) [] = names.map (·.chars) := by
  have hcomponents : components (absolutePath names) = names.map (·.chars) := by
    rw [← List.dropLast_append_getLast hne, absolutePath_concat,
      components_absolutePath _ (names.getLast hne).plain, List.map_append]
    rfl
  have hhead : (absolutePath names).head? = some '/' := by
    cases names with
    | nil => exact absurd rfl hne
    | cons name names => rfl
  rw [resolve, if_pos hhead, hcomponents, List.nil_append, List.append_nil]
  exact normalize_append [] (plain_chars names)

/-- A path below its base, relative to it. -/
theorem relpath_append {base path : List Path} (hne : path ≠ []) :
    relpath (base ++ path) base = path := by
  have hcommon : (((base ++ path).zip base).takeWhile fun p => p.1 = p.2).length =
      base.length := by
    induction base with
    | nil => simp
    | cons part parts ih =>
        rw [List.cons_append, List.zip_cons_cons, List.takeWhile_cons, if_pos (by simp),
          List.length_cons, ih, List.length_cons]
  simp only [relpath, hcommon, Nat.sub_self, List.replicate_zero, List.nil_append,
    List.drop_left, if_neg hne]

/-- The two checks of the validator, which concern the name and the size only. -/
def StrmValidator.wants (validator : StrmValidator) (lower : Path → Path) (f : RemoteFile) :
    Bool :=
  ¬ (f.size : ℤ) < validator.sizeThresholdBytes &&
    (lower (splitext f.name.chars).2).dropWhile (· = '.') ∈ validator.videoFormats

/-- The files the validator chooses. -/
def expectedFiles (validator : StrmValidator) (lower : Path → Path) (nodes : List RemoteNode) :
    List RemoteFile :=
  (entries [] nodes).filter (validator.wants lower)

theorem wanted_path (validator : StrmValidator) (lower : Path → Path) (path : Path) (name : FileName) (f : RemoteFile) (hname : f.name = name) :
    validator.wanted lower (path ++ '/' :: name.chars) f.size = validator.wants lower f := by
  subst hname
  rw [StrmValidator.wanted, StrmValidator.fileExtension, splitext_append f.name.noSlash,
    StrmValidator.wants]

theorem absolutePath_append (a b : List FileName) :
    absolutePath (a ++ b) = absolutePath a ++ absolutePath b := List.flatMap_append

theorem base_prefix (base parents : List FileName) (name : FileName) :
    absolutePath base <+: absolutePath (base ++ parents) ++ '/' :: name.chars := by
  rw [absolutePath_append, List.append_assoc]
  exact List.prefix_append _ _

mutual

theorem processNode_eq {base : List FileName} (hbase : validator.remoteBase = absolutePath base)
    (parents : List FileName) (node : RemoteNode) :
    validator.processNode lower cwd (encodeNode (absolutePath (base ++ parents)) node) =
      ((nodeEntries parents node).filter (validator.wants lower)).map fun f =>
        validator.expectedPath cwd (absolutePath (base ++ f.path)) := by
  cases node with
  | file fid name size category =>
      rw [encodeNode, StrmValidator.processNode, StrmValidator.processItems,
        StrmValidator.processItems, StrmValidator.processItem, nodeEntries, List.append_nil]
      show (if ¬ validator.remoteBase <+: absolutePath (base ++ parents) ++ '/' :: name.chars then []
        else if false = true then _
        else if validator.wanted lower (absolutePath (base ++ parents) ++ '/' :: name.chars) size
        then [validator.expectedPath cwd (absolutePath (base ++ parents) ++ '/' :: name.chars)]
        else []) = _
      have hwanted := wanted_path validator lower (absolutePath (base ++ parents))
        name ⟨parents, fid, name, size, category⟩ rfl
      rw [if_neg (not_not.mpr (hbase ▸ base_prefix base parents name)), if_neg (by decide),
        hwanted, List.filter_cons, List.filter_nil]
      split_ifs
      · rw [List.map_cons, List.map_nil, ← absolutePath_concat, List.append_assoc]
        rfl
      · rfl
  | dir fid name children =>
      rw [encodeNode, StrmValidator.processNode, StrmValidator.processItems,
        StrmValidator.processItems, StrmValidator.processItem, nodeEntries, List.append_nil]
      have hpath : absolutePath (base ++ parents) ++ '/' :: name.chars =
          absolutePath (base ++ (parents ++ [name])) := by
        rw [← absolutePath_concat, List.append_assoc]
      rw [← processChildren_eq hbase (parents ++ [name]) children, ← hpath]
      show (if ¬ validator.remoteBase <+: absolutePath (base ++ parents) ++ '/' :: name.chars then []
        else if true = true then validator.processItem lower cwd "children".toList
          (.arr (encodeNodes (absolutePath (base ++ parents) ++ '/' :: name.chars) children))
        else _) = _
      rw [if_neg (not_not.mpr (hbase ▸ base_prefix base parents name)), if_pos rfl,
        StrmValidator.processItem, if_pos rfl]

theorem processChildren_eq {base : List FileName}
    (hbase : validator.remoteBase = absolutePath base) (parents : List FileName)
    (nodes : List RemoteNode) :
    validator.processChildren lower cwd (encodeNodes (absolutePath (base ++ parents)) nodes) =
      ((entries parents nodes).filter (validator.wants lower)).map fun f =>
        validator.expectedPath cwd (absolutePath (base ++ f.path)) := by
  cases nodes with
  | nil => rfl
  | cons node nodes =>
      rw [encodeNodes, StrmValidator.processChildren, entries, List.filter_append,
        List.map_append, processNode_eq hbase parents node,
        processChildren_eq hbase parents nodes]

end

theorem mem_buildExpectedStrmSet {base : List FileName}
    (hbase : validator.remoteBase = absolutePath base) {nodes : List RemoteNode} {p : List Path} :
    p ∈ validator.buildExpectedStrmSet lower cwd (cachedTree base nodes) ↔
      ∃ f ∈ expectedFiles validator lower nodes,
        p = validator.expectedPath cwd (absolutePath (base ++ f.path)) := by
  have hall := @processChildren_eq cwd validator lower base hbase [] nodes
  rw [List.append_nil] at hall
  rw [StrmValidator.buildExpectedStrmSet, cachedTree, StrmValidator.processNode,
    StrmValidator.processItems, StrmValidator.processItems, StrmValidator.processItem, if_pos rfl,
    List.append_nil, hall, List.mem_map]
  simp only [expectedFiles, eq_comm]

/-- Where the validator expects a file: its extension is replaced. -/
def replacedPath (cwd : List Path) (directory : Path) (f : RemoteFile) : List Path :=
  resolve cwd directory [] ++
    (f.parents.map (·.chars) ++ [(splitext f.name.chars).1 ++ ".strm".toList])

theorem expectedPath_eq {base : List FileName} (hbase : validator.remoteBase = absolutePath base)
    (hne : base ≠ []) (f : RemoteFile) :
    validator.expectedPath cwd (absolutePath (base ++ f.path)) =
      replacedPath cwd validator.targetDirectory f := by
  have hrelative : relpath (resolve cwd (absolutePath (base ++ f.path)) [])
      (resolve cwd validator.remoteBase []) = f.parents.map (·.chars) ++ [f.name.chars] := by
    rw [hbase, resolve_absolutePath hne, resolve_absolutePath (by simp [hne]), List.map_append,
      relpath_append (by simp [RemoteFile.path]), RemoteFile.path, List.map_append]
    rfl
  have hstem : '/' ∉ (splitext f.name.chars).1 := by
    intro h
    refine f.name.noSlash ?_
    rw [← splitext_join f.name.chars]
    exact List.mem_append_left _ h
  have hparts : ∀ p ∈ f.parents.map (·.chars) ++ [(splitext f.name.chars).1 ++ ".strm".toList],
      Plain p := by
    intro p hp
    rcases List.mem_append.mp hp with hp | hp
    · exact plain_chars f.parents p hp
    · rw [List.mem_singleton.mp hp]
      exact .append_strm hstem
  simp only [StrmValidator.expectedPath, hrelative, List.getLast?_concat, Option.getD_some,
    List.dropLast_concat]
  exact resolve_append cwd validator.targetDirectory hparts

/-- The constructor drops the slashes behind a base directory. -/
theorem remoteBase_new (target : Path) (base : List FileName) (slashes : ℕ) (formats : List Path)
    (mb : ℤ) : (StrmValidator.new target (absolutePath base ++ List.replicate slashes '/') formats
      mb).remoteBase = absolutePath base := by
  have hdrop : ∀ l : Path, (List.replicate slashes '/' ++ l).dropWhile (· = '/') =
      l.dropWhile (· = '/') := by
    intro l
    induction slashes with
    | zero => rfl
    | succ n ih =>
        rw [List.replicate_succ, List.cons_append, List.dropWhile_cons_of_pos (by simp), ih]
  show ((absolutePath base ++ List.replicate slashes '/').reverse.dropWhile (· = '/')).reverse = _
  rw [List.reverse_append, List.reverse_replicate, hdrop]
  induction base using List.reverseRecOn with
  | nil => rfl
  | append_singleton names name ih =>
      have hlast : ∀ c rest, name.chars.reverse = c :: rest → c ≠ '/' := by
        intro c rest h hc
        refine name.noSlash (List.mem_reverse.mp ?_)
        rw [h, hc]
        exact List.mem_cons_self
      rw [absolutePath_concat, List.reverse_append, List.reverse_cons, List.append_assoc]
      cases hn : name.chars.reverse with
      | nil => exact absurd (List.reverse_eq_nil_iff.mp hn) name.nonempty
      | cons c rest =>
          rw [List.cons_append, List.dropWhile_cons_of_neg (by simpa using hlast c rest hn),
            ← List.cons_append, ← hn]
          simp

/-- Nothing is missing and nothing is left over exactly if both lists have the same paths. -/
theorem fastScan_iff {tree : Json} (htree : tree.falsy = false) {locals : List (List Path)} :
    (validator.fastScan lower cwd (some tree) locals).missingFiles = [] ∧
        (validator.fastScan lower cwd (some tree) locals).extraFiles = [] ↔
      ∀ p, p ∈ locals ↔ p ∈ validator.buildExpectedStrmSet lower cwd tree := by
  simp only [StrmValidator.fastScan, htree, Bool.false_eq_true, if_false,
    List.filter_eq_nil_iff, List.mem_dedup, decide_eq_true_eq, not_not]
  exact ⟨fun h p => ⟨h.2 p, h.1 p⟩, fun h => ⟨fun p => (h p).mpr, fun p => (h p).mp⟩⟩

end Validating

section Comparison
variable {cwd : List Path} {directory : Path} {above : List FileName} {f g : RemoteFile}

theorem chars_injective : Function.Injective FileName.chars := fun _ _ h => FileName.ext h

/-- When the generator writes what the validator expects of another file. -/
theorem writtenPath_eq_iff : writtenPath cwd directory above f = replacedPath cwd directory g ↔
    above ++ f.parents = g.parents ∧ f.name.chars = (splitext g.name.chars).1 := by
  rw [writtenPath, replacedPath, List.append_cancel_left_eq]
  constructor
  · intro h
    obtain ⟨hparents, hname⟩ := List.append_inj' h rfl
    refine ⟨List.map_injective_iff.mpr chars_injective hparents, ?_⟩
    exact List.append_cancel_right (List.cons.inj hname).1
  · intro h
    rw [h.1, h.2]

theorem name_eq_of_path (h : f.path = g.path) : f.name = g.name :=
  (List.cons.inj (List.append_inj' h rfl).2).1

/-- The length of a path without its slashes. -/
def weight (names : List FileName) : ℕ := (names.map (·.chars.length)).sum

theorem weight_append (a b : List FileName) : weight (a ++ b) = weight a + weight b := by
  rw [weight, List.map_append, List.sum_append, weight, weight]

theorem weight_eq_zero {names : List FileName} (h : weight names = 0) : names = [] := by
  cases names with
  | nil => rfl
  | cons name names =>
      rw [weight, List.map_cons, List.sum_cons] at h
      have hpos := List.length_pos_iff.mpr name.nonempty
      omega

/-- A path written for another file is no longer than that file's path, and as long only
if it is that file's path, of a name without extension. -/
theorem weight_le_of_written (h : above ++ f.parents = g.parents)
    (hname : f.name.chars = (splitext g.name.chars).1) : weight f.path ≤ weight g.path ∧
      (weight f.path = weight g.path → above = [] ∧ (splitext g.name.chars).2 = [] ∧
        f.path = g.path) := by
  have hparents : weight above + weight f.parents = weight g.parents := by
    rw [← weight_append, h]
  have hlength : f.name.chars.length + (splitext g.name.chars).2.length = g.name.chars.length := by
    rw [hname, ← List.length_append, splitext_join]
  have hf : weight f.path = weight f.parents + f.name.chars.length := by
    rw [RemoteFile.path, weight_append]
    simp [weight]
  have hg : weight g.path = weight g.parents + g.name.chars.length := by
    rw [RemoteFile.path, weight_append]
    simp [weight]
  refine ⟨by omega, fun he => ?_⟩
  have habove : above = [] := weight_eq_zero (by omega)
  have hext : (splitext g.name.chars).2 = [] := List.length_eq_zero_iff.mp (by omega)
  have hsame : f.name = g.name := by
    refine FileName.ext ?_
    rw [hname]
    have hjoin := splitext_join g.name.chars
    rwa [hext, List.append_nil] at hjoin
  refine ⟨habove, hext, ?_⟩
  rw [habove, List.nil_append] at h
  rw [RemoteFile.path, RemoteFile.path, h, hsame]

/-- For validators that choose none but the generator's files: the two sets of paths are
the same exactly if the generator used no prefix and each file it chose has no extension
and is chosen by the validator too. -/
theorem paths_agree_iff (cwd : List Path) (directory : Path) {generatedFiles wantedFiles : List RemoteFile}
    (hsub : ∀ g ∈ wantedFiles, ∃ f ∈ generatedFiles, f.path = g.path) :
    (∀ p, (∃ f ∈ generatedFiles, p = writtenPath cwd directory above f) ↔
        ∃ g ∈ wantedFiles, p = replacedPath cwd directory g) ↔
      ∀ f ∈ generatedFiles, above = [] ∧ (splitext f.name.chars).2 = [] ∧
        ∃ g ∈ wantedFiles, g.path = f.path := by
  constructor
  · intro hsame
    let bound := (generatedFiles.map fun f => weight f.path).sum
    have hbound : ∀ f ∈ generatedFiles, weight f.path ≤ bound := fun f hf =>
      List.le_sum_of_mem (List.mem_map_of_mem hf)
    -- a file written for another one is lighter, so the heaviest files come first
    have hdown : ∀ n, ∀ f ∈ generatedFiles, bound - weight f.path = n → above = [] ∧
        (splitext f.name.chars).2 = [] ∧ ∃ g ∈ wantedFiles, g.path = f.path := by
      intro n
      induction n using Nat.strong_induction_on with
      | _ n ih =>
          intro f hf hn
          obtain ⟨g, hg, hpath⟩ := (hsame _).mp ⟨f, hf, rfl⟩
          obtain ⟨hparents, hname⟩ := writtenPath_eq_iff.mp hpath
          obtain ⟨hle, heq⟩ := weight_le_of_written hparents hname
          obtain ⟨f', hf', hfg⟩ := hsub g hg
          by_cases hw : weight f.path = weight g.path
          · obtain ⟨habove, hext, hfiles⟩ := heq hw
            have hsameName : f.name = g.name := name_eq_of_path hfiles
            exact ⟨habove, by rw [hsameName, hext], g, hg, hfiles.symm⟩
          · have hbig := hbound f' hf'
            rw [hfg] at hbig
            obtain ⟨habove, hext, -⟩ := ih (bound - weight g.path) (by omega) f' hf' (by rw [hfg])
            rw [name_eq_of_path hfg] at hext
            have hfull := splitext_join g.name.chars
            rw [hext, List.append_nil, ← hname] at hfull
            have hfiles : f.path = g.path := by
              rw [habove, List.nil_append] at hparents
              rw [RemoteFile.path, RemoteFile.path, hparents, FileName.ext hfull]
            exact absurd (congrArg weight hfiles) hw
    exact fun f hf => hdown _ f hf rfl
  · intro hall p
    have hpath : ∀ {f g : RemoteFile}, above = [] → (splitext f.name.chars).2 = [] →
        f.path = g.path →
        writtenPath cwd directory above f = replacedPath cwd directory g := by
      intro f g habove hext hfiles
      have hfull := splitext_join f.name.chars
      rw [hext, List.append_nil] at hfull
      rw [writtenPath_eq_iff, habove, List.nil_append, ← name_eq_of_path hfiles, hfull]
      exact ⟨(List.append_inj' hfiles rfl).1, rfl⟩
    constructor
    · rintro ⟨f, hf, rfl⟩
      obtain ⟨habove, hext, g, hg, hfiles⟩ := hall f hf
      exact ⟨g, hg, hpath habove hext hfiles.symm⟩
    · rintro ⟨g, hg, rfl⟩
      obtain ⟨f, hf, hfiles⟩ := hsub g hg
      obtain ⟨habove, hext, -⟩ := hall f hf
      exact ⟨f, hf, (hpath habove hext hfiles).symm⟩

end Comparison

section Scan
variable {β : Type} {cwd : List Path} {outputDir : Path} {onlyVideo : Bool}
  {nodes : List RemoteNode} {above : List FileName} {fs : FileMap (List Path) β}
  {lower : Path → Path} {walk : List (List Path)}

/-- The scan of the output directory finds all that was written, and nothing else. -/
theorem mem_listLocalStrmFiles
    (hfs : ∀ p, p ∈ fs ↔ ∃ f ∈ generated onlyVideo nodes, p = writtenPath cwd outputDir above f)
    (hlower : ∀ name, ".strm".toList <:+ lower (name ++ ".strm".toList))
    (hwalk : StrmValidator.Walks cwd outputDir fs walk) {p : List Path} :
    p ∈ StrmValidator.listLocalStrmFiles lower walk ↔
      ∃ f ∈ generated onlyVideo nodes, p = writtenPath cwd outputDir above f := by
  rw [StrmValidator.listLocalStrmFiles, List.mem_filter, hwalk, hfs, List.isSuffixOf_iff_suffix]
  constructor
  · exact fun h => h.1.1
  · intro h
    refine ⟨⟨h, ?_⟩, ?_⟩
    · obtain ⟨f, -, rfl⟩ := h
      exact List.prefix_append _ _
    · obtain ⟨f, -, rfl⟩ := h
      rw [writtenPath, ← List.append_assoc, List.getLast?_concat]
      exact hlower f.name.chars

end Scan

section Examples

def remoteDir : FileName := ⟨"remote".toList, by decide, by decide, by decide, by decide⟩

def movieName : FileName := ⟨"a.mkv".toList, by decide, by decide, by decide, by decide⟩

def bareName : FileName := ⟨"a".toList, by decide, by decide, by decide, by decide⟩

def asciiLower (p : Path) : Path := p.map Char.toLower

theorem asciiLower_strm (name : Path) :
    ".strm".toList <:+ asciiLower (name ++ ".strm".toList) := by
  rw [asciiLower, List.map_append]
  exact List.suffix_append _ _

def bareTree : List RemoteNode := [.file "1" bareName 209715200 1]

end Examples

end SmartMedia.Media
