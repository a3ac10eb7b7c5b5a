import SmartMedia.Media.RemotePaths

/-!
# Are path and id lookups inverse?

A path is made of names that are stripped and unescaped once; a segment of a path is compared
with names unescaped once and twice, and the first one may also be the id of an entry. So a
lookup by path accepts more than the paths that are made, and may take an entry for another
one that is listed later.
-/
namespace SmartMedia.Media
namespace RemoteTree

variable {tree : RemoteTree} {html5 : Path → Option Path} {e first : RemoteEntry}
  {way : List RemoteEntry} {names : List Path} {path : Path} {file : FileModel}

/-- From an entry up to the root. -/
def climb (tree : RemoteTree) : ℕ → String → List RemoteEntry
  | 0, _ => []
  | fuel + 1, fid =>
      match tree.getFileInfo fid with
      | none => []
      | some e => climb tree fuel e.pdirFid ++ [e]

/-- The entries on the way from the root to an id. -/
def wayTo (tree : RemoteTree) (fid : String) : List RemoteEntry :=
  tree.climb tree.entries.length fid

/-- The names of a folder are distinct, and can be segments. -/
structure NamesDistinct (tree : RemoteTree) (html5 : Path → Option Path) : Prop where
  noSlash : ∀ e ∈ tree.entries, '/' ∉ name html5 e
  distinct : ∀ e ∈ tree.entries, ∀ f ∈ tree.entries, e.pdirFid = f.pdirFid →
    name html5 e = name html5 f → e = f

/-- The two lookups undo each other. -/
structure Inverse (tree : RemoteTree) (html5 : Path → Option Path) : Prop where
  there : ∀ e ∈ tree.entries,
    (tree.getFileByPath html5 (tree.getFullPathByFid html5 e.fid)).map (·.fid) = some e.fid
  back : ∀ path file, tree.getFileByPath html5 path = some file →
    tree.getFullPathByFid html5 file.fid = join (components path)

/-- A name that a path keeps. -/
structure Kept (html5 : Path → Option Path) (e : RemoteEntry) : Prop where
  stripped : strip e.fileName = e.fileName
  nonempty : name html5 e ≠ []

/-- No entry that is listed before this one has its name when it is unescaped again. -/
def NotMistaken (tree : RemoteTree) (html5 : Path → Option Path) (e : RemoteEntry) : Prop :=
  ∀ x ∈ tree.before e, Html.unescape html5 (name html5 x) ≠ name html5 e

/-- An entry of the root is found by its name: the name is no other entry's id, and is not
mistaken, unless it is the entry's own id. -/
structure Recognised (tree : RemoteTree) (html5 : Path → Option Path) (e : RemoteEntry) :
    Prop where
  byId : ∀ x, tree.legacy (name html5 e) = some x → x = e
  byName : tree.legacy (name html5 e) = none → tree.NotMistaken html5 e

section Join

theorem join_cons_cons (a b : Path) (names : List Path) :
    join (a :: b :: names) = a ++ '/' :: join (b :: names) := by
  simp [join, List.intercalate]

theorem components_join (h : ∀ n ∈ names, n ≠ [] ∧ '/' ∉ n) : components (join names) = names := by
  induction names with
  | nil => rfl
  | cons a names ih =>
      have ha := h a List.mem_cons_self
      cases names with
      | nil =>
          have hjoin : join [a] = a := by simp [join, List.intercalate]
          rw [hjoin, components, splitSlash_of_notMem ha.2, List.filter_cons,
            if_pos (decide_eq_true ha.1), List.filter_nil]
      | cons b names =>
          rw [join_cons_cons, components_append, ih fun n hn => h n (List.mem_cons_of_mem _ hn),
            components, splitSlash_of_notMem ha.2, List.filter_cons, if_pos (decide_eq_true ha.1),
            List.filter_nil]
          rfl

end Join

section WayTo

theorem climb_way {fuel : ℕ} (h : IsWay tree "0" way) (hfuel : way.length ≤ fuel) :
    tree.climb fuel (lastFid "0" way) = way := by
  induction way using List.reverseRecOn generalizing fuel with
  | nil =>
      cases fuel with
      | zero => rfl
      | succ fuel =>
          have hroot : tree.getFileInfo (lastFid "0" []) = none := getFileInfo_root
          rw [climb, hroot]
  | append_singleton way e ih =>
      obtain ⟨hway, he, hparent⟩ := isWay_concat.mp h
      rw [List.length_append, List.length_singleton] at hfuel
      obtain ⟨fuel, rfl⟩ := Nat.exists_eq_succ_of_ne_zero (show fuel ≠ 0 by omega)
      rw [lastFid_concat, climb, getFileInfo_eq_some.mpr ⟨he, rfl⟩]
      simp only
      rw [hparent, ih hway (by omega)]

theorem wayTo_lastFid (h : IsWay tree "0" way) : tree.wayTo (lastFid "0" way) = way :=
  climb_way h (length_way_le h)

end WayTo

section Names

theorem pathName_of_kept (h : Kept html5 e) : pathName html5 e = name html5 e := by
  rw [pathName, h.stripped, name]

theorem pathNames_of_kept (h : ∀ x ∈ way, Kept html5 x) :
    pathNames html5 way = way.map (name html5) := by
  have hmap : way.map (pathName html5) = way.map (name html5) :=
    List.map_congr_left fun x hx => pathName_of_kept (h x hx)
  rw [pathNames, hmap, List.filter_eq_self]
  intro n hn
  obtain ⟨x, hx, rfl⟩ := List.mem_map.mp hn
  exact decide_eq_true (h x hx).nonempty

theorem mem_before {x : RemoteEntry} (h : x ∈ tree.before e) :
    x ∈ tree.entries ∧ x.pdirFid = e.pdirFid ∧ x ≠ e := by
  have hchild := (List.takeWhile_prefix _).subset h
  have hne : x.fid ≠ e.fid := of_decide_eq_true (List.all_eq_true.mp (List.all_takeWhile) x h)
  rw [mem_children] at hchild
  exact ⟨hchild.1, hchild.2, fun heq => hne (heq ▸ rfl)⟩

/-- The name of an entry finds it exactly if it is not mistaken. -/
theorem finds_name_iff (hnames : NamesDistinct tree html5) (he : e ∈ tree.entries) :
    tree.Finds html5 (name html5 e) e ↔ tree.NotMistaken html5 e := by
  constructor
  · exact fun h x hx htwice => h.2 x hx (.inr htwice)
  · refine fun h => ⟨.inl rfl, fun x hx hmatch => ?_⟩
    obtain ⟨hx', hparent, hne⟩ := mem_before hx
    rcases hmatch with honce | htwice
    · exact hne (hnames.distinct x hx' e he hparent honce)
    · exact h x hx htwice

theorem findsAll_names_iff (hnames : NamesDistinct tree html5) (h : ∀ x ∈ way, x ∈ tree.entries) :
    tree.FindsAll html5 (way.map (name html5)) way ↔ ∀ x ∈ way, tree.NotMistaken html5 x := by
  rw [FindsAll, List.forall₂_map_left_iff, List.forall₂_same]
  exact forall₂_congr fun x hx => finds_name_iff hnames (h x hx)

end Names

section Inverse

theorem getFullPathByFid_root : tree.getFullPathByFid html5 "0" = join [] := by
  have hfid : String.ofList (strip "0".toList) = "0" := rfl
  rw [getFullPathByFid, hfid, ascend_root, List.reverse_nil]

theorem getFullPathByFid_lastFid (h : IsWay tree "0" way) :
    tree.getFullPathByFid html5 (lastFid "0" way) = join (pathNames html5 way) := by
  induction way using List.reverseRecOn with
  | nil => exact getFullPathByFid_root
  | append_singleton way e _ =>
      rw [lastFid_concat]
      exact getFullPathByFid_way h

/-- The path of an entry leads back to it exactly if no name on the way is mistaken. -/
theorem there_iff (hnames : NamesDistinct tree html5) (hway : IsWay tree "0" (first :: way))
    (hkept : ∀ x ∈ first :: way, Kept html5 x) :
    (tree.getFileByPath html5 (tree.getFullPathByFid html5 (lastFid "0" (first :: way)))).map
        (·.fid) = some (lastFid "0" (first :: way)) ↔
      Recognised tree html5 first ∧ ∀ x ∈ way, tree.NotMistaken html5 x := by
  have hmem := hway.mem
  have hsegments : ∀ n ∈ (first :: way).map (name html5), n ≠ [] ∧ '/' ∉ n := by
    intro n hn
    obtain ⟨x, hx, rfl⟩ := List.mem_map.mp hn
    exact ⟨(hkept x hx).nonempty, hnames.noSlash x (hmem x hx)⟩
  have hpath : components (join ((first :: way).map (name html5))) =
      name html5 first :: way.map (name html5) := components_join hsegments
  rw [getFullPathByFid_lastFid hway, pathNames_of_kept hkept,
    getFileByPath_reaches_iff hway hpath (List.length_map _), findsAll_names_iff hnames fun x hx => hmem x (List.mem_cons_of_mem _ hx)]
  refine and_congr_left fun _ => ⟨fun h => ⟨h.byId, fun hnone => ?_⟩, fun h => ⟨h.byId, fun hnone => ?_⟩⟩
  · exact (finds_name_iff hnames hway.1).mp (h.byName hnone)
  · exact (finds_name_iff hnames hway.1).mpr (h.byName hnone)

/-- The way of an entry that a path finds by names. -/
theorem exists_way_of_getFileByPath (h : tree.getFileByPath html5 path = some file)
    (hlegacy : ∀ first ∈ (components path).head?, tree.legacy first = none) :
    ∃ way, IsWay tree "0" way ∧ file.fid = lastFid "0" way := by
  unfold getFileByPath at h
  cases hpath : components path with
  | nil =>
      rw [hpath] at h
      obtain rfl := Option.some.inj h
      exact ⟨[], trivial, rfl⟩
  | cons first rest =>
      rw [hpath] at h hlegacy
      simp only [hlegacy first rfl] at h
      obtain ⟨way, hway, -, rfl⟩ := walk_eq_some.mp h
      exact ⟨way, hway, fid_foldl way _⟩

/-- A path is that of the entry it finds exactly if its segments are the names on the way. -/
theorem back_iff (hnames : NamesDistinct tree html5)
    (hfound : tree.getFileByPath html5 path = some file)
    (hlegacy : ∀ first ∈ (components path).head?, tree.legacy first = none)
    (hkept : ∀ x ∈ tree.wayTo file.fid, Kept html5 x) :
    tree.getFullPathByFid html5 file.fid = join (components path) ↔
      components path = (tree.wayTo file.fid).map (name html5) := by
  obtain ⟨way, hway, hfid⟩ := exists_way_of_getFileByPath hfound hlegacy
  rw [hfid, wayTo_lastFid hway] at hkept ⊢
  rw [getFullPathByFid_lastFid hway, pathNames_of_kept hkept]
  have hsegments : ∀ n ∈ way.map (name html5), n ≠ [] ∧ '/' ∉ n := by
    intro n hn
    obtain ⟨x, hx, rfl⟩ := List.mem_map.mp hn
    exact ⟨(hkept x hx).nonempty, hnames.noSlash x (hway.mem x hx)⟩
  constructor
  · intro hjoin
    rw [← components_join hsegments, hjoin, components_join fun n hn => mem_components hn]
  · exact fun heq => congrArg join heq.symm

/-- Both lookups, one after the other, for the names that a path keeps. -/
theorem lookups_inverse (hnames : NamesDistinct tree html5) :
    (∀ e ∈ tree.entries, (∀ x ∈ tree.wayTo e.fid, Kept html5 x) →
      ((tree.getFileByPath html5 (tree.getFullPathByFid html5 e.fid)).map (·.fid) = some e.fid ↔
        ∀ first rest, tree.wayTo e.fid = first :: rest →
          Recognised tree html5 first ∧ ∀ x ∈ rest, tree.NotMistaken html5 x)) ∧
    ∀ path file, tree.getFileByPath html5 path = some file →
      (∀ first ∈ (components path).head?, tree.legacy first = none) →
        (∀ x ∈ tree.wayTo file.fid, Kept html5 x) →
          (tree.getFullPathByFid html5 file.fid = join (components path) ↔
            components path = (tree.wayTo file.fid).map (name html5)) := by
  refine ⟨fun e he hkept => ?_, fun path file => back_iff hnames⟩
  obtain ⟨front, hfront⟩ := exists_way he
  obtain ⟨first, way, hsplit⟩ := List.exists_cons_of_ne_nil
    (List.append_ne_nil_of_right_ne_nil front (List.cons_ne_nil e []))
  have hlast : lastFid "0" (first :: way) = e.fid := by rw [← hsplit, lastFid_concat]
  rw [hsplit] at hfront
  rw [← hlast, wayTo_lastFid hfront] at hkept ⊢
  rw [there_iff hnames hfront hkept]
  constructor
  · rintro h first' rest hcons
    cases hcons
    exact h
  · exact fun h => h first way rfl

end Inverse

section Examples

/-- A drive with these files in its root. -/
def ofRoot (files : List FileData) (hnodup : (files.map (·.fid)).Nodup)
    (hroot : ∀ file ∈ files, file.fid ≠ "0")
    (hstripped : ∀ file ∈ files, file.fid ≠ "" ∧ String.ofList (strip file.fid.toList) = file.fid) :
    RemoteTree where
  entries := files.map fun file => { file with pdirFid := "0" }
  depth := fun fid => if fid = "0" then 0 else 1
  fid_nodup := by simpa [List.map_map, Function.comp_def] using hnodup
  fid_ne_root := by simpa using hroot
  fid_stripped := by simpa using hstripped
  parent := by simp
  depth_root := rfl
  depth_entry := by
    intro e he
    obtain ⟨file, hfile, rfl⟩ := List.mem_map.mp he
    simp [hroot file hfile]

/-- The reference `&amp;`. -/
def ampersand (reference : Path) : Option Path :=
  if reference = "amp;".toList then some ['&'] else none

/-- A file, found by its id. -/
def legacyDrive : RemoteTree :=
  ofRoot [⟨"0123456789abcdef0123456789abcdef", "Movies".toList, 0, 0, 0⟩] (by decide) (by decide)
    (by decide)

/-- A name that is another one escaped. -/
def escapedDrive : RemoteTree :=
  ofRoot [⟨"a", "&amp;amp;".toList, 1, 1, 0⟩, ⟨"b", "&amp;".toList, 1, 1, 0⟩] (by decide)
    (by decide) (by decide)

/-- A name with a space before it. -/
def paddedDrive : RemoteTree :=
  ofRoot [⟨"a", " x".toList, 1, 1, 0⟩] (by decide) (by decide) (by decide)

theorem lookups_not_inverse :
    (NamesDistinct legacyDrive ampersand ∧ ¬ Inverse legacyDrive ampersand) ∧
      (NamesDistinct escapedDrive ampersand ∧ ¬ Inverse escapedDrive ampersand) ∧
        (NamesDistinct paddedDrive ampersand ∧ ¬ Inverse paddedDrive ampersand) := by
  refine ⟨⟨⟨by decide +kernel, by decide +kernel⟩, fun h => ?_⟩,
    ⟨⟨by decide +kernel, by decide +kernel⟩, fun h => ?_⟩,
    ⟨⟨by decide +kernel, by decide +kernel⟩, fun h => ?_⟩⟩
  · have hback := h.back "0123456789abcdef0123456789abcdef".toList
      ⟨"0123456789abcdef0123456789abcdef", "Movies".toList, true, 0, 0⟩ (by decide +kernel)
    exact absurd hback (by decide +kernel)
  · have hthere := h.there ⟨⟨"b", "&amp;".toList, 1, 1, 0⟩, "0"⟩ (by decide +kernel)
    exact absurd hthere (by decide +kernel)
  · have hthere := h.there ⟨⟨"a", " x".toList, 1, 1, 0⟩, "0"⟩ (by decide +kernel)
    exact absurd hthere (by decide +kernel)

/-- Two names, one of them escaped. -/
def plainDrive : RemoteTree :=
  ofRoot [⟨"a", "&amp;".toList, 1, 1, 0⟩, ⟨"b", "x y".toList, 1, 1, 0⟩] (by decide) (by decide)
    (by decide)

theorem lookups_inverse_plainDrive :
    (plainDrive.getFileByPath ampersand (plainDrive.getFullPathByFid ampersand "b")).map (·.fid) =
        some "b" ∧
      plainDrive.getFullPathByFid ampersand "a" = join (components "/&".toList) := by
  have hnames : NamesDistinct plainDrive ampersand := ⟨by decide +kernel, by decide +kernel⟩
  obtain ⟨hthere, hback⟩ := lookups_inverse hnames
  have hwayA : plainDrive.wayTo "a" = [⟨⟨"a", "&amp;".toList, 1, 1, 0⟩, "0"⟩] := by decide +kernel
  have hwayB : plainDrive.wayTo "b" = [⟨⟨"b", "x y".toList, 1, 1, 0⟩, "0"⟩] := by decide +kernel
  constructor
  · have hkept : ∀ x ∈ plainDrive.wayTo "b", Kept ampersand x := by
      rw [hwayB, List.forall_mem_singleton]
      exact ⟨by decide +kernel, by decide +kernel⟩
    refine (hthere ⟨⟨"b", "x y".toList, 1, 1, 0⟩, "0"⟩ (by decide +kernel) hkept).mpr ?_
    intro first rest hcons
    have hcons' := hwayB.symm.trans hcons
    cases hcons'
    have hlegacy : plainDrive.legacy "x y".toList = none := by decide +kernel
    have hother : ∀ x ∈ plainDrive.before ⟨⟨"b", "x y".toList, 1, 1, 0⟩, "0"⟩,
        Html.unescape ampersand (name ampersand x) ≠ "x y".toList := by decide +kernel
    refine ⟨⟨fun x hx => ?_, fun _ => hother⟩, by simp⟩
    exact absurd (hlegacy.symm.trans hx) (Option.some_ne_none x).symm
  · have hkept : ∀ x ∈ plainDrive.wayTo "a", Kept ampersand x := by
      rw [hwayA, List.forall_mem_singleton]
      exact ⟨by decide +kernel, by decide +kernel⟩
    refine (hback "/&".toList ⟨"a", ['&'], false, 1, 0⟩ (by decide +kernel) (by decide +kernel)
      hkept).mpr ?_
    decide +kernel

end Examples

end RemoteTree

end SmartMedia.Media
