import SmartMedia.Media.RemoteTree

/-!
# Walking down and up the drive

The way from a folder down to an entry is unique, and its length is the difference of the
depths. So a walk that takes as many segments reaches the entry exactly if it starts in the
folder and every segment finds the next entry of the way, before any other entry.
-/
namespace SmartMedia.Media
namespace RemoteTree

variable {tree : RemoteTree} {html5 : Path → Option Path} {e f : RemoteEntry}
  {way : List RemoteEntry} {parts : List Path} {parent start : String}

/-- A way down from a folder. -/
def IsWay (tree : RemoteTree) : String → List RemoteEntry → Prop
  | _, [] => True
  | parent, e :: way => e ∈ tree.entries ∧ e.pdirFid = parent ∧ IsWay tree e.fid way

/-- The name of an entry in a listing. -/
def name (html5 : Path → Option Path) (e : RemoteEntry) : Path := Html.unescape html5 e.fileName

/-- The entries that are listed before this one. -/
def before (tree : RemoteTree) (e : RemoteEntry) : List RemoteEntry :=
  (tree.children e.pdirFid).takeWhile (·.fid ≠ e.fid)

/-- The segment is the name of the entry, unescaped once or twice. -/
def Names (html5 : Path → Option Path) (part : Path) (e : RemoteEntry) : Prop :=
  name html5 e = part ∨ Html.unescape html5 (name html5 e) = part

/-- The segment finds the entry: it names it and no entry that is listed before it. -/
def Finds (tree : RemoteTree) (html5 : Path → Option Path) (part : Path) (e : RemoteEntry) :
    Prop :=
  Names html5 part e ∧ ∀ x ∈ tree.before e, ¬ Names html5 part x

section Entries

theorem eq_of_fid (he : e ∈ tree.entries) (hf : f ∈ tree.entries) (h : e.fid = f.fid) : e = f :=
  List.inj_on_of_nodup_map tree.fid_nodup he hf h

theorem mem_children : e ∈ tree.children parent ↔ e ∈ tree.entries ∧ e.pdirFid = parent := by
  simp [children]

theorem getFileInfo_eq_some {fid : String} :
    tree.getFileInfo fid = some e ↔ e ∈ tree.entries ∧ e.fid = fid := by
  constructor
  · intro h
    exact ⟨List.mem_of_find?_eq_some h, by simpa using List.find?_some h⟩
  · rintro ⟨he, rfl⟩
    obtain ⟨x, hx⟩ : ∃ x, tree.getFileInfo e.fid = some x := by
      rw [← Option.isSome_iff_exists, getFileInfo, List.find?_isSome]
      exact ⟨e, he, by simp⟩
    have hfid : x.fid = e.fid := by simpa using List.find?_some hx
    rw [hx, eq_of_fid (List.mem_of_find?_eq_some hx) he hfid]

theorem getFileInfo_root : tree.getFileInfo "0" = none := by
  rw [Option.eq_none_iff_forall_ne_some]
  intro e he
  rw [getFileInfo_eq_some] at he
  exact tree.fid_ne_root e he.1 he.2

end Entries

section Ways

theorem IsWay.mem (h : IsWay tree start way) : ∀ x ∈ way, x ∈ tree.entries := by
  induction way generalizing start with
  | nil => simp
  | cons e way ih =>
      intro x hx
      rcases List.mem_cons.mp hx with rfl | hx
      · exact h.1
      · exact ih h.2.2 x hx

theorem isWay_append {more : List RemoteEntry} : IsWay tree start (way ++ e :: more) ↔
    IsWay tree start (way ++ [e]) ∧ IsWay tree e.fid more := by
  induction way generalizing start with
  | nil =>
      simp only [List.nil_append, IsWay, and_true]
      exact and_assoc.symm
  | cons x way ih =>
      simp only [List.cons_append, IsWay, ih, and_assoc]

/-- Where a way ends. -/
def lastFid (start : String) (way : List RemoteEntry) : String :=
  way.foldl (fun _ e => e.fid) start

theorem lastFid_concat : lastFid start (way ++ [e]) = e.fid := by simp [lastFid]

theorem isWay_concat : IsWay tree start (way ++ [e]) ↔
    IsWay tree start way ∧ e ∈ tree.entries ∧ e.pdirFid = lastFid start way := by
  induction way generalizing start with
  | nil => simp [IsWay, lastFid]
  | cons x way ih =>
      have hlast : lastFid start (x :: way) = lastFid x.fid way := rfl
      rw [List.cons_append, IsWay, ih, IsWay, hlast]
      simp only [and_assoc]

theorem depth_lastFid (h : IsWay tree start way) :
    tree.depth (lastFid start way) = tree.depth start + way.length := by
  induction way using List.reverseRecOn with
  | nil => rfl
  | append_singleton way e ih =>
      obtain ⟨hway, he, hparent⟩ := isWay_concat.mp h
      rw [lastFid_concat, tree.depth_entry e he, hparent, ih hway, List.length_append,
        List.length_singleton]
      omega

/-- Ways of one length to one entry are the same. -/
theorem way_unique {other : String} {way' : List RemoteEntry} (h : IsWay tree start way)
    (h' : IsWay tree other way') (hlength : way.length = way'.length)
    (hlast : lastFid start way = lastFid other way') : start = other ∧ way = way' := by
  induction way using List.reverseRecOn generalizing way' with
  | nil =>
      obtain rfl := List.length_eq_zero_iff.mp hlength.symm
      exact ⟨hlast, rfl⟩
  | append_singleton way e ih =>
      induction way' using List.reverseRecOn with
      | nil => simp at hlength
      | append_singleton way' e' _ =>
          obtain ⟨hway, he, hparent⟩ := isWay_concat.mp h
          obtain ⟨hway', he', hparent'⟩ := isWay_concat.mp h'
          rw [lastFid_concat, lastFid_concat] at hlast
          obtain rfl : e = e' := eq_of_fid he he' hlast
          have hshort : way.length = way'.length := by simpa using hlength
          obtain ⟨hstart, rfl⟩ := ih hway hway' hshort (hparent.symm.trans hparent')
          exact ⟨hstart, rfl⟩

/-- From the root to every entry. -/
theorem exists_way (he : e ∈ tree.entries) : ∃ way, IsWay tree "0" (way ++ [e]) := by
  induction hdepth : tree.depth e.fid using Nat.strong_induction_on generalizing e with
  | _ n ih =>
      rcases tree.parent e he with hroot | ⟨d, hd, hparent⟩
      · exact ⟨[], he, hroot, trivial⟩
      · have hless : tree.depth d.fid < n := by
          rw [← hdepth, tree.depth_entry e he, hparent]
          exact Nat.lt_succ_self _
        obtain ⟨way, hway⟩ := ih _ hless hd rfl
        refine ⟨way ++ [d], isWay_concat.mpr ⟨hway, he, ?_⟩⟩
        rw [lastFid_concat, hparent]

end Ways

section Walks
variable {file found : FileModel} {part : Path}

/-- Every segment finds the next entry of the way. -/
def FindsAll (tree : RemoteTree) (html5 : Path → Option Path) (parts : List Path)
    (way : List RemoteEntry) : Prop :=
  List.Forall₂ (tree.Finds html5) parts way

theorem matchesPart_iff : matchesPart html5 part (fileModelFromInfo html5 e.toFileData) = true ↔
    Names html5 part e := by
  rw [matchesPart, Bool.or_eq_true, decide_eq_true_iff, decide_eq_true_iff]
  rfl

theorem before_eq {front back : List RemoteEntry}
    (h : tree.children e.pdirFid = front ++ e :: back) : tree.before e = front := by
  have hnodup : ((front ++ e :: back).map (·.fid)).Nodup := by
    rw [← h, children]
    exact tree.fid_nodup.sublist (List.filter_sublist.map _)
  rw [List.map_append, List.map_cons, List.nodup_append'] at hnodup
  have hother : ∀ x ∈ front, x.fid ≠ e.fid := by
    intro x hx heq
    exact hnodup.2.2 (List.mem_map.mpr ⟨x, hx, heq⟩) List.mem_cons_self
  rw [before, h, List.takeWhile_append_of_pos fun x hx => decide_eq_true (hother x hx),
    List.takeWhile_cons_of_neg (by simp), List.append_nil]

/-- The first match of a listing is the entry that the segment finds. -/
theorem find_files_iff : (tree.files html5 parent).find? (matchesPart html5 part) = some found ↔
    ∃ e ∈ tree.entries, e.pdirFid = parent ∧ tree.Finds html5 part e ∧
      found = fileModelFromInfo html5 e.toFileData := by
  rw [files, List.find?_map, Option.map_eq_some_iff]
  simp only [List.find?_eq_some_iff_append, Function.comp_apply, matchesPart_iff]
  constructor
  · rintro ⟨e, ⟨hnames, front, back, hsplit, hfront⟩, rfl⟩
    obtain ⟨he, rfl⟩ := mem_children.mp (hsplit ▸ List.mem_append_right front List.mem_cons_self)
    refine ⟨e, he, rfl, ⟨hnames, fun x hx hmatch => ?_⟩, rfl⟩
    rw [before_eq hsplit] at hx
    have hno := hfront x hx
    rw [matchesPart_iff.mpr hmatch] at hno
    cases hno
  · rintro ⟨e, he, rfl, hfinds, rfl⟩
    obtain ⟨front, back, hsplit⟩ := List.append_of_mem (mem_children.mpr ⟨he, rfl⟩)
    refine ⟨e, ⟨hfinds.1, front, back, hsplit, fun x hx => ?_⟩, rfl⟩
    rw [Bool.not_eq_true', Bool.eq_false_iff, Ne, matchesPart_iff]
    exact hfinds.2 x (before_eq hsplit ▸ hx)

/-- A walk finds the entries of a way. -/
theorem walk_eq_some : tree.walk html5 file parts = some found ↔
    ∃ way, IsWay tree file.fid way ∧ tree.FindsAll html5 parts way ∧
      found = way.foldl (fun _ e => fileModelFromInfo html5 e.toFileData) file := by
  induction parts generalizing file with
  | nil =>
      rw [walk, Option.some_inj]
      constructor
      · rintro rfl
        exact ⟨[], trivial, .nil, rfl⟩
      · rintro ⟨way, -, hfinds, rfl⟩
        cases hfinds
        rfl
  | cons part parts ih =>
      rw [walk, Option.bind_eq_some_iff]
      simp only [find_files_iff, ih]
      constructor
      · rintro ⟨_, ⟨e, he, hparent, hfinds, rfl⟩, way, hway, hall, rfl⟩
        exact ⟨e :: way, ⟨he, hparent, hway⟩, .cons hfinds hall, rfl⟩
      · rintro ⟨way, hway, hall, rfl⟩
        cases hall with
        | cons hfinds hall =>
            obtain ⟨he, hparent, hway⟩ := hway
            exact ⟨_, ⟨_, he, hparent, hfinds, rfl⟩, _, hway, hall, rfl⟩

theorem fid_foldl (way : List RemoteEntry) (file : FileModel) :
    (way.foldl (fun _ e => fileModelFromInfo html5 e.toFileData) file).fid =
      lastFid file.fid way := by
  induction way generalizing file with
  | nil => rfl
  | cons e way ih => exact ih _

/-- A walk of the right length reaches an entry exactly if it starts at the beginning of the
way and finds all of it. -/
theorem walk_reaches_iff (hway : IsWay tree start way) (hlength : parts.length = way.length) :
    (tree.walk html5 file parts).map (·.fid) = some (lastFid start way) ↔
      file.fid = start ∧ tree.FindsAll html5 parts way := by
  rw [Option.map_eq_some_iff]
  simp only [walk_eq_some]
  constructor
  · rintro ⟨_, ⟨way', hway', hall, rfl⟩, hfid⟩
    rw [fid_foldl] at hfid
    have hsame : way'.length = way.length := hall.length_eq.symm.trans hlength
    obtain ⟨hstart, rfl⟩ := way_unique hway' hway hsame hfid
    exact ⟨hstart, hall⟩
  · rintro ⟨rfl, hall⟩
    exact ⟨_, ⟨way, hway, hall, rfl⟩, fid_foldl way file⟩

end Walks

section Lookup
variable {path first : Path} {rest : List Path}

/-- The first segment leads to an entry of the root: by its id, or else by its name. -/
structure Starts (tree : RemoteTree) (html5 : Path → Option Path) (first : Path)
    (e : RemoteEntry) : Prop where
  byId : ∀ x, tree.legacy first = some x → x = e
  byName : tree.legacy first = none → tree.Finds html5 first e

theorem mem_of_legacy (h : tree.legacy first = some e) : e ∈ tree.entries := by
  unfold legacy at h
  split at h
  · exact (getFileInfo_eq_some.mp h).1
  · cases h

/-- From a folder that may not be the root. -/
theorem getFileByPath_reaches_from_iff (hway : IsWay tree start (e :: way))
    (hpath : components path = first :: rest) (hlength : rest.length = way.length) :
    (tree.getFileByPath html5 path).map (·.fid) = some (lastFid start (e :: way)) ↔
      ((∀ x, tree.legacy first = some x → x = e) ∧
        (tree.legacy first = none → start = "0" ∧ tree.Finds html5 first e)) ∧
          tree.FindsAll html5 rest way := by
  have hdown : IsWay tree e.fid way := hway.2.2
  have hlast : lastFid start (e :: way) = lastFid e.fid way := rfl
  unfold getFileByPath
  rw [hpath]
  simp only
  cases hlegacy : tree.legacy first with
  | some x =>
      have hx := mem_of_legacy hlegacy
      simp only
      rw [hlast, walk_reaches_iff hdown hlength]
      refine and_congr_left fun _ => ⟨fun hfid => ⟨fun y hy => ?_, fun hnone => ?_⟩, fun h => ?_⟩
      · exact Option.some.inj hy ▸ eq_of_fid hx hway.1 hfid
      · cases hnone
      · rw [h.1 x rfl]
        rfl
  | none =>
      simp only
      rw [walk_reaches_iff hway (by rw [List.length_cons, List.length_cons, hlength]), FindsAll,
        List.forall₂_cons]
      constructor
      · rintro ⟨hstart, hfinds, hall⟩
        refine ⟨⟨fun x hx => ?_, fun _ => ⟨hstart.symm, hfinds⟩⟩, hall⟩
        cases hx
      · rintro ⟨⟨-, hstarts⟩, hall⟩
        obtain ⟨rfl, hfinds⟩ := hstarts trivial
        exact ⟨rfl, hfinds, hall⟩

theorem getFileByPath_reaches_iff (hway : IsWay tree "0" (e :: way))
    (hpath : components path = first :: rest) (hlength : rest.length = way.length) :
    (tree.getFileByPath html5 path).map (·.fid) = some (lastFid "0" (e :: way)) ↔
      tree.Starts html5 first e ∧ tree.FindsAll html5 rest way := by
  rw [getFileByPath_reaches_from_iff hway hpath hlength]
  refine and_congr_left fun _ => ⟨fun h => ⟨h.1, fun hnone => (h.2 hnone).2⟩, fun h => ?_⟩
  exact ⟨h.byId, fun hnone => ⟨rfl, h.byName hnone⟩⟩

end Lookup

section Ascent

theorem ne_of_isWay (h : IsWay tree start (way ++ [e])) {x : RemoteEntry} (hx : x ∈ way) :
    x.fid ≠ e.fid := by
  obtain ⟨front, back, rfl⟩ := List.append_of_mem hx
  have hdepth := depth_lastFid h
  rw [List.append_assoc, List.cons_append, isWay_append] at h
  have hx' := depth_lastFid h.1
  rw [lastFid_concat] at hdepth hx'
  intro heq
  rw [heq, hdepth] at hx'
  simp only [List.length_append, List.length_cons, List.length_nil] at hx'
  omega

theorem nodup_way (h : IsWay tree start way) : way.Nodup := by
  induction way using List.reverseRecOn with
  | nil => exact List.nodup_nil
  | append_singleton way e ih =>
      rw [List.nodup_append']
      refine ⟨ih (isWay_concat.mp h).1, List.nodup_singleton e, ?_⟩
      rw [List.disjoint_singleton]
      exact fun he => ne_of_isWay h he rfl

theorem length_way_le (h : IsWay tree start way) : way.length ≤ tree.entries.length :=
  ((nodup_way h).subperm h.mem).length_le

/-- The names that go into a path. -/
def pathNames (html5 : Path → Option Path) (way : List RemoteEntry) : List Path :=
  (way.map (pathName html5)).filter (· ≠ [])

theorem stripped_parent (he : e ∈ tree.entries) :
    String.ofList (strip (if e.pdirFid = "" then "0" else e.pdirFid).toList) = e.pdirFid := by
  rcases tree.parent e he with hroot | ⟨d, hd, hparent⟩
  · rw [hroot]
    rfl
  · rw [← hparent, if_neg (tree.fid_stripped d hd).1]
    exact (tree.fid_stripped d hd).2

theorem reverse_pathNames_concat : (pathNames html5 (way ++ [e])).reverse =
    [pathName html5 e].filter (· ≠ []) ++ (pathNames html5 way).reverse := by
  rw [pathNames, List.map_append, List.filter_append, List.reverse_append, pathNames,
    List.map_singleton, ← List.filter_reverse, List.reverse_singleton]

theorem ascend_root (fuel : ℕ) (visited : List String) :
    tree.ascend html5 fuel visited "0" = [] := by
  cases fuel with
  | zero => rfl
  | succ fuel => rw [ascend, if_pos (.inr (.inl rfl))]

theorem ascend_entry {fuel : ℕ} {visited : List String} (he : e ∈ tree.entries)
    (hnew : e.fid ∉ visited) :
    tree.ascend html5 (fuel + 1) visited e.fid = [pathName html5 e].filter (· ≠ []) ++
      if e.pdirFid = "" ∨ e.pdirFid = e.fid then []
      else tree.ascend html5 fuel (e.fid :: visited) e.pdirFid := by
  have hgo : ¬ (e.fid = "" ∨ e.fid = "0" ∨ e.fid ∈ visited) := by
    rw [not_or, not_or]
    exact ⟨(tree.fid_stripped e he).1, tree.fid_ne_root e he, hnew⟩
  rw [ascend, if_neg hgo, getFileInfo_eq_some.mpr ⟨he, rfl⟩]
  simp only
  rw [stripped_parent he]

/-- From an entry up to the root, none of which has been visited. -/
theorem ascend_way {fuel : ℕ} {visited : List String} (h : IsWay tree "0" (way ++ [e]))
    (hfuel : way.length < fuel) (hnew : ∀ x ∈ way ++ [e], x.fid ∉ visited) :
    tree.ascend html5 fuel visited e.fid = (pathNames html5 (way ++ [e])).reverse := by
  induction way using List.reverseRecOn generalizing e fuel visited with
  | nil =>
      obtain ⟨-, he, hparent⟩ := isWay_concat.mp h
      obtain ⟨fuel, rfl⟩ := Nat.exists_eq_succ_of_ne_zero (Nat.ne_of_gt hfuel)
      have hroot : e.pdirFid = "0" := hparent
      rw [ascend_entry he (hnew e (by simp)), reverse_pathNames_concat, hroot, ascend_root, ite_self]
      rfl
  | append_singleton way d ih =>
      obtain ⟨hway, he, hparent⟩ := isWay_concat.mp h
      obtain ⟨fuel, rfl⟩ := Nat.exists_eq_succ_of_ne_zero (Nat.ne_of_gt (Nat.zero_lt_of_lt hfuel))
      rw [lastFid_concat] at hparent
      have hd : d ∈ tree.entries := (isWay_concat.mp hway).2.1
      have hother : ∀ x ∈ way ++ [d], x.fid ≠ e.fid := fun x hx => ne_of_isWay h hx
      have hgo : ¬ (e.pdirFid = "" ∨ e.pdirFid = e.fid) := by
        rw [hparent, not_or]
        exact ⟨(tree.fid_stripped d hd).1, hother d (by simp)⟩
      rw [ascend_entry he (hnew e (by simp)), reverse_pathNames_concat, if_neg hgo, hparent]
      congr 1
      apply ih hway
      · rw [List.length_append, List.length_singleton] at hfuel
        omega
      · intro x hx
        rw [List.mem_cons, not_or]
        exact ⟨hother x hx, hnew x (List.mem_append_left _ hx)⟩

theorem getFullPathByFid_way (h : IsWay tree "0" (way ++ [e])) :
    tree.getFullPathByFid html5 e.fid = join (pathNames html5 (way ++ [e])) := by
  have hfid : String.ofList (strip e.fid.toList) = e.fid :=
    (tree.fid_stripped e (isWay_concat.mp h).2.1).2
  have hlength := length_way_le h
  rw [List.length_append, List.length_singleton] at hlength
  rw [getFullPathByFid, hfid, ascend_way h (by omega) (by simp), List.reverse_reverse]

end Ascent

end RemoteTree

end SmartMedia.Media
