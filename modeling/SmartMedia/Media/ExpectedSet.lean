import SmartMedia.Media.StrmAgreement

/-!
# The set of expected STRM files

A cached tree of named directories and files, and the files of it that lie below the remote base.
`build_expected_strm_set` finds them by the beginnings of names: it does not enter a directory above
the base, and takes what only begins like it.
-/
namespace SmartMedia.Media

/-- A node of the cached tree, under some key. -/
inductive CachedNode
  | file (key name : Path) (size : ℤ)
  | dir (key name : Path) (children : List CachedNode)

/-- A file of the tree with the names of the directories that it is in. -/
structure CachedFile where
  above : List Path
  name : Path
  size : ℤ

mutual

def CachedNode.encode : CachedNode → Json
  | .file key name size => .obj [(key, .obj [
      ("name".toList, .str name),
      ("size".toList, .num size),
      ("is_dir".toList, .bool false)])]
  | .dir key name children => .obj [(key, .obj [
      ("name".toList, .str name),
      ("is_dir".toList, .bool true),
      ("children".toList, .arr (encodeChildren children))])]

def encodeChildren : List CachedNode → List Json
  | [] => []
  | node :: nodes => node.encode :: encodeChildren nodes

end

mutual

def CachedNode.files (above : List Path) : CachedNode → List CachedFile
  | .file _ name size => [⟨above, name, size⟩]
  | .dir _ name children => filesOf (above ++ [name]) children

def filesOf (above : List Path) : List CachedNode → List CachedFile
  | [] => []
  | node :: nodes => node.files above ++ filesOf above nodes

end

/-- What `json.load` returns of the cache file. -/
def cacheOf (nodes : List CachedNode) : Json :=
  .obj [("children".toList, .arr (encodeChildren nodes))]

section Recursion
variable (validator : StrmValidator) (lower : Path → Path) (cwd : List Path)

/-- The names of the file and of all directories that it is in begin like the base. -/
def StrmValidator.Begins (f : CachedFile) : Prop :=
  ∀ name ∈ f.above ++ [f.name], validator.remoteBase <+: name

instance (f : CachedFile) : Decidable (validator.Begins f) :=
  inferInstanceAs (Decidable (∀ name ∈ f.above ++ [f.name], validator.remoteBase <+: name))

/-- What is taken of the files. -/
def StrmValidator.taken (files : List CachedFile) : List CachedFile :=
  files.filter fun f => validator.Begins f ∧ validator.wanted lower f.name f.size

mutual

theorem above_of_mem_files (above : List Path) (node : CachedNode) :
    ∀ f ∈ node.files above, above <+: f.above := by
  cases node with
  | file key name size =>
      intro f hf
      rw [CachedNode.files, List.mem_singleton] at hf
      rw [hf]
  | dir key name children =>
      intro f hf
      rw [CachedNode.files] at hf
      exact (List.prefix_append above [name]).trans
        (above_of_mem_filesOf (above ++ [name]) children f hf)

theorem above_of_mem_filesOf (above : List Path) (nodes : List CachedNode) :
    ∀ f ∈ filesOf above nodes, above <+: f.above := by
  cases nodes with
  | nil =>
      intro f hf
      cases hf
  | cons node nodes =>
      intro f hf
      rw [filesOf, List.mem_append] at hf
      rcases hf with hf | hf
      · exact above_of_mem_files above node f hf
      · exact above_of_mem_filesOf above nodes f hf

end

theorem begins_iff {above : List Path} (habove : ∀ name ∈ above, validator.remoteBase <+: name)
    (name : Path) (size : ℤ) :
    validator.Begins ⟨above, name, size⟩ ↔ validator.remoteBase <+: name := by
  rw [StrmValidator.Begins, List.forall_mem_append, List.forall_mem_singleton, and_iff_right habove]

/-- Nothing is taken from a directory whose name does not begin like the base. -/
theorem taken_outside {above : List Path} {name : Path} (hname : ¬ validator.remoteBase <+: name)
    (nodes : List CachedNode) : validator.taken lower (filesOf (above ++ [name]) nodes) = [] := by
  rw [StrmValidator.taken, List.filter_eq_nil_iff]
  intro f hf htaken
  have hbegins := (of_decide_eq_true htaken).1
  apply hname
  apply hbegins name
  apply List.mem_append_left
  exact (above_of_mem_filesOf _ _ f hf).subset (by simp)

mutual

/-- The recursion takes the files whose names begin like the base all the way. -/
theorem processNode_encode {above : List Path} (habove : ∀ name ∈ above, validator.remoteBase <+: name)
    (node : CachedNode) :
    validator.processNode lower cwd node.encode =
      (validator.taken lower (node.files above)).map fun f => validator.expectedPath cwd f.name := by
  cases node with
  | file key name size =>
      rw [CachedNode.encode, StrmValidator.processNode, StrmValidator.processItems,
        StrmValidator.processItems, StrmValidator.processItem, CachedNode.files, List.append_nil]
      show (if ¬ validator.remoteBase <+: name then []
        else if false = true then _
        else if validator.wanted lower name size then [validator.expectedPath cwd name] else []) = _
      have htest := begins_iff validator habove name size
      rw [StrmValidator.taken, List.filter_singleton, if_neg Bool.false_ne_true]
      by_cases hname : validator.remoteBase <+: name
      · rw [if_neg (not_not.mpr hname)]
        by_cases hwanted : validator.wanted lower name size
        · simp [htest, hname, hwanted]
        · simp [hwanted]
      · rw [if_pos hname]
        simp [htest, hname]
  | dir key name children =>
      rw [CachedNode.encode, StrmValidator.processNode, StrmValidator.processItems,
        StrmValidator.processItems, StrmValidator.processItem, CachedNode.files, List.append_nil]
      show (if ¬ validator.remoteBase <+: name then []
        else if true = true then validator.processItem lower cwd "children".toList
          (.arr (encodeChildren children))
        else _) = _
      by_cases hname : validator.remoteBase <+: name
      · have hbelow : ∀ n ∈ above ++ [name], validator.remoteBase <+: n := by
          rw [List.forall_mem_append, List.forall_mem_singleton]
          exact ⟨habove, hname⟩
        rw [if_neg (not_not.mpr hname), if_pos rfl, StrmValidator.processItem, if_pos rfl,
          processChildren_encode hbelow children]
      · rw [if_pos hname, taken_outside validator lower hname]
        rfl

theorem processChildren_encode {above : List Path}
    (habove : ∀ name ∈ above, validator.remoteBase <+: name) (nodes : List CachedNode) :
    validator.processChildren lower cwd (encodeChildren nodes) =
      (validator.taken lower (filesOf above nodes)).map fun f =>
        validator.expectedPath cwd f.name := by
  cases nodes with
  | nil => rfl
  | cons node nodes =>
      rw [encodeChildren, StrmValidator.processChildren, filesOf, StrmValidator.taken,
        List.filter_append, List.map_append, processNode_encode habove node,
        processChildren_encode habove nodes]
      rfl

end

theorem mem_buildExpectedStrmSet_iff (nodes : List CachedNode) (p : List Path) :
    p ∈ validator.buildExpectedStrmSet lower cwd (cacheOf nodes) ↔
      ∃ f ∈ filesOf [] nodes, validator.Begins f ∧
        validator.wanted lower f.name f.size = true ∧ p = validator.expectedPath cwd f.name := by
  have hall := @processChildren_encode validator lower cwd [] (by simp) nodes
  rw [StrmValidator.buildExpectedStrmSet, cacheOf, StrmValidator.processNode,
    StrmValidator.processItems, StrmValidator.processItems, StrmValidator.processItem, if_pos rfl,
    List.append_nil, hall, StrmValidator.taken, List.mem_map]
  constructor
  · rintro ⟨f, hf, rfl⟩
    rw [List.mem_filter, decide_eq_true_iff] at hf
    exact ⟨f, hf.1, hf.2.1, hf.2.2, rfl⟩
  · rintro ⟨f, hf, hbegins, hwanted, rfl⟩
    exact ⟨f, List.mem_filter.mpr ⟨hf, decide_eq_true ⟨hbegins, hwanted⟩⟩, rfl⟩

end Recursion

section Placed
variable (lower : Path → Path) (cwd : List Path) (target base : Path) {f : CachedFile}

/-- Below the base, component by component. -/
def Lies (f : CachedFile) : Prop :=
  resolve cwd base [] <+: resolve cwd f.name [] ∧ resolve cwd f.name [] ≠ resolve cwd base []

/-- Below the target as it lies below the base, with another extension. -/
def placed (f : CachedFile) : List Path :=
  let relative := (resolve cwd f.name []).drop (resolve cwd base []).length
  resolve cwd target [] ++
    (relative.dropLast ++ [(splitext (relative.getLast?.getD [])).1 ++ ".strm".toList])

/-- The base without the slashes at its end is the same directory. -/
def Kept : Prop := base = [] ∨ (∃ c ∈ base, c ≠ '/') ∨ resolve cwd [] [] = []

/-- Slashes at the end add no component. -/
theorem components_append_slashes (p slashes : Path) (h : ∀ c ∈ slashes, c = '/') :
    components (p ++ slashes) = components p := by
  induction slashes generalizing p with
  | nil => rw [List.append_nil]
  | cons c slashes ih =>
      rw [List.forall_mem_cons] at h
      have hrest := ih [] h.2
      rw [List.nil_append] at hrest
      rw [h.1, components_append, hrest]
      exact List.append_nil _

theorem resolve_remoteBase (hkept : Kept cwd base) (formats : List Path) (mb : ℤ) :
    resolve cwd (StrmValidator.new target base formats mb).remoteBase [] = resolve cwd base [] := by
  have hbase : (StrmValidator.new target base formats mb).remoteBase =
      (base.reverse.dropWhile (· = '/')).reverse := rfl
  have hsplit : base = (base.reverse.dropWhile (· = '/')).reverse ++
      (base.reverse.takeWhile (· = '/')).reverse := by
    rw [← List.reverse_append, List.takeWhile_append_dropWhile, List.reverse_reverse]
  have hslashes : ∀ c ∈ (base.reverse.takeWhile (· = '/')).reverse, c = '/' := by
    intro c hc
    exact of_decide_eq_true (List.all_eq_true.mp List.all_takeWhile c (List.mem_reverse.mp hc))
  rw [hbase]
  generalize (base.reverse.dropWhile (· = '/')).reverse = kept at hsplit ⊢
  generalize (base.reverse.takeWhile (· = '/')).reverse = slashes at hsplit hslashes
  subst hsplit
  rw [resolve, resolve, components_append_slashes kept slashes hslashes]
  cases kept with
  | cons c kept => rfl
  | nil =>
      rw [Kept, List.nil_append] at hkept
      rw [List.nil_append]
      rcases hkept with rfl | ⟨c, hc, hne⟩ | hroot
      · rfl
      · exact absurd (hslashes c hc) hne
      · have hnone : components [] = [] := rfl
        have hcwd : normalize (cwd ++ [] ++ []) = [] := hroot
        rw [hnone, List.head?_nil, if_neg (by simp), hcwd]
        split_ifs
        · rfl
        · exact hcwd.symm

theorem expectedPath_of_lies {validator : StrmValidator} (htarget : validator.targetDirectory = target)
    (hbase : resolve cwd validator.remoteBase [] = resolve cwd base []) (hf : Lies cwd base f) :
    validator.expectedPath cwd f.name = placed cwd target base f := by
  obtain ⟨⟨relative, hrelative⟩, hne⟩ := hf
  have hrest : relative ≠ [] := by
    rintro rfl
    exact hne (by rw [← hrelative, List.append_nil])
  have hdotless : ∀ p ∈ relative.dropLast ++
      [(splitext (relative.getLast?.getD [])).1 ++ ".strm".toList],
      p ≠ ['.'] ∧ p ≠ ['.', '.'] := by
    intro p hp
    rcases List.mem_append.mp hp with hp | hp
    · have hmem : p ∈ resolve cwd f.name [] := by
        rw [← hrelative]
        exact List.mem_append_right _ (List.mem_of_mem_dropLast hp)
      exact (mem_normalize hmem).2
    · rw [List.mem_singleton.mp hp]
      constructor
      · intro heq
        have hlength := congrArg List.length heq
        simp at hlength
      · intro heq
        have hlength := congrArg List.length heq
        simp at hlength
  rw [StrmValidator.expectedPath, hbase, htarget, placed, ← hrelative, relpath_append hrest,
    List.drop_left, resolve_append_of_dotless _ _ hdotless]

theorem placed_below (f : CachedFile) :
    resolve cwd target [] <+: placed cwd target base f ∧
      placed cwd target base f ≠ resolve cwd target [] := by
  refine ⟨List.prefix_append _ _, fun h => ?_⟩
  have hlength := congrArg List.length h
  rw [placed] at hlength
  simp at hlength

/-- The set is right exactly if each file whose name does not begin like the base below which it lies,
and each file that only begins like it, has the path of one that is rightly taken. -/
theorem buildExpectedStrmSet_iff (formats : List Path) (mb : ℤ) (nodes : List CachedNode) :
    let validator := StrmValidator.new target base formats mb
    let wanted := fun f : CachedFile => validator.wanted lower f.name f.size = true
    ((∀ p, p ∈ validator.buildExpectedStrmSet lower cwd (cacheOf nodes) ↔
        ∃ f ∈ filesOf [] nodes, wanted f ∧ Lies cwd base f ∧ p = placed cwd target base f) ∧
      ∀ p ∈ validator.buildExpectedStrmSet lower cwd (cacheOf nodes),
        resolve cwd target [] <+: p ∧ p ≠ resolve cwd target []) ↔
    ∀ f ∈ filesOf [] nodes, wanted f → 
      (Lies cwd base f → ¬(validator.Begins f ∧ Kept cwd base) → 
        ∃ g ∈ filesOf [] nodes, wanted g ∧ validator.Begins g ∧
          validator.expectedPath cwd g.name = placed cwd target base f) ∧
      (validator.Begins f → ¬(Lies cwd base f ∧ Kept cwd base) →
        ∃ g ∈ filesOf [] nodes, wanted g ∧ Lies cwd base g ∧
          placed cwd target base g = validator.expectedPath cwd f.name) := by
  intro validator wanted
  have hmem := mem_buildExpectedStrmSet_iff validator lower cwd nodes
  have hsame : ∀ f, Lies cwd base f → Kept cwd base →
      validator.expectedPath cwd f.name = placed cwd target base f := fun f hf hkept =>
    expectedPath_of_lies cwd target base rfl (resolve_remoteBase cwd target base hkept formats mb) hf
  constructor
  · rintro ⟨hset, -⟩ f hf hwanted
    constructor
    · intro hlies _
      obtain ⟨g, hg, hbegins, hgwanted, heq⟩ := (hmem _).mp ((hset _).mpr ⟨f, hf, hwanted, hlies, rfl⟩)
      exact ⟨g, hg, hgwanted, hbegins, heq.symm⟩
    · intro hbegins _
      obtain ⟨g, hg, hgwanted, hlies, heq⟩ := (hset _).mp ((hmem _).mpr ⟨f, hf, hbegins, hwanted, rfl⟩)
      exact ⟨g, hg, hgwanted, hlies, heq.symm⟩
  · intro h
    have hset : ∀ p, p ∈ validator.buildExpectedStrmSet lower cwd (cacheOf nodes) ↔
        ∃ f ∈ filesOf [] nodes, wanted f ∧ Lies cwd base f ∧ p = placed cwd target base f := by
      intro p
      rw [hmem]
      constructor
      · rintro ⟨f, hf, hbegins, hwanted, rfl⟩
        by_cases hright : Lies cwd base f ∧ Kept cwd base
        · exact ⟨f, hf, hwanted, hright.1, hsame f hright.1 hright.2⟩
        · obtain ⟨g, hg, hgwanted, hlies, heq⟩ := (h f hf hwanted).2 hbegins hright
          exact ⟨g, hg, hgwanted, hlies, heq.symm⟩
      · rintro ⟨f, hf, hwanted, hlies, rfl⟩
        by_cases hright : validator.Begins f ∧ Kept cwd base
        · exact ⟨f, hf, hright.1, hwanted, (hsame f hlies hright.2).symm⟩
        · obtain ⟨g, hg, hgwanted, hbegins, heq⟩ := (h f hf hwanted).1 hlies hright
          exact ⟨g, hg, hbegins, hgwanted, heq.symm⟩
    refine ⟨hset, fun p hp => ?_⟩
    obtain ⟨f, -, -, -, rfl⟩ := (hset p).mp hp
    exact placed_below cwd target base f

/-- A file below a directory above the base is missed, and one of a directory that begins like the
base is expected outside the target. -/
theorem media_missed_and_strayed :
    let validator := StrmValidator.new "/strm".toList "/media".toList ["mkv".toList] 100
    let film : CachedFile := ⟨["/".toList], "/media/a.mkv".toList, 209715200⟩
    filesOf [] [.dir "root".toList "/".toList [.file "a".toList film.name film.size]] = [film] ∧
      validator.wanted asciiLower film.name film.size = true ∧ Lies [] "/media".toList film ∧
      validator.buildExpectedStrmSet asciiLower [] (cacheOf
        [.dir "root".toList "/".toList [.file "a".toList film.name film.size]]) = [] ∧
      validator.buildExpectedStrmSet asciiLower [] (cacheOf
        [.file "b".toList "/media2/b.mkv".toList 209715200]) =
          [["media2".toList, "b.strm".toList]] := by
  refine ⟨rfl, by decide, ⟨by decide, by decide⟩, ?_, ?_⟩
  · rfl
  · rfl

end Placed

end SmartMedia.Media
