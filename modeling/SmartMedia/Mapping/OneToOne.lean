import SmartMedia.Mapping.MediaIds

/-!
# One row for a path, one row for a file id

Neither column is unique in the schema. A `get_or_create` that finds its row by the file id
moves it to the path of the call, and `update_provider_file_id` looks at no other row: these
are the two ways to a second row for a path or for a file id, but for the empty file id, which
is stored and never looked up.
-/
namespace SmartMedia.Mapping
open PartialRun Media Strm PythonText

variable {sha1 : List UInt8 → Vector UInt8 20} {t t' : MediaMappings} {call : Call}

namespace MediaMappings

section Column
variable {κ : Type} (column : MediaMapping → Option κ)

/-- No two rows have the same value in a column that may be null. -/
def Unique (t : MediaMappings) : Prop :=
  ∀ r ∈ t.rows, ∀ s ∈ t.rows, ∀ value, column r = some value → column s = some value → r = s

variable {column}

theorem eq_of_mediaId {r s : MediaMapping} (hr : r ∈ t.rows) (hs : s ∈ t.rows)
    (h : r.mediaId = s.mediaId) : r = s :=
  List.inj_on_of_nodup_map t.unique hr hs h

theorem rows_insert {r : MediaMapping} (h : t.insert r = some t') : t'.rows = t.rows ++ [r] := by
  rw [insert] at h
  split at h
  · cases h
  · exact (Option.some.inj h) ▸ rfl

/-- An added row must not repeat a value. -/
theorem unique_insert {r : MediaMapping} (hunique : t.Unique column)
    (hinsert : t.insert r = some t') :
    t'.Unique column ↔ ∀ value ∈ column r, ∀ s ∈ t.rows, column s ≠ some value := by
  have hfree : r.mediaId ∉ t.ids := by
    rw [← insert_eq_none_iff, hinsert]
    exact Option.some_ne_none t'
  have hrows : t'.rows = t.rows ++ [r] := rows_insert hinsert
  have hmem : ∀ {q}, q ∈ t'.rows ↔ q ∈ t.rows ∨ q = r := by
    intro q
    rw [hrows, List.mem_append, List.mem_singleton]
  constructor
  · intro h value hvalue s hs hsame
    obtain rfl : s = r := h s (hmem.mpr (.inl hs)) r (hmem.mpr (.inr rfl)) value hsame hvalue
    exact hfree (List.mem_map.mpr ⟨s, hs, rfl⟩)
  · intro h q hq p hp value hqvalue hpvalue
    rcases hmem.mp hq with hq | rfl <;> rcases hmem.mp hp with hp | rfl
    · exact hunique q hq p hp value hqvalue hpvalue
    · exact absurd hqvalue (h value hpvalue q hq)
    · exact absurd hpvalue (h value hqvalue p hp)
    · rfl

/-- Neither must a row that is set. -/
theorem unique_update {r : MediaMapping} {f : MediaMapping → MediaMapping}
    (hunique : t.Unique column) (hr : r ∈ t.rows) (hf : ∀ r, (f r).mediaId = r.mediaId) :
    (t.update r.mediaId f hf).Unique column ↔
      ∀ value ∈ column (f r), ∀ s ∈ t.rows, column s = some value → s = r := by
  have hmem : ∀ {q}, q ∈ (t.update r.mediaId f hf).rows ↔
      ∃ p ∈ t.rows, (if p.mediaId = r.mediaId then f p else p) = q := List.mem_map
  constructor
  · intro h value hvalue s hs hsame
    by_contra hne
    have hid : s.mediaId ≠ r.mediaId := fun heq => hne (eq_of_mediaId hs hr heq)
    have heq := h (f r) (hmem.mpr ⟨r, hr, if_pos rfl⟩) s (hmem.mpr ⟨s, hs, if_neg hid⟩) value
      hvalue hsame
    exact hid (heq ▸ hf r)
  · intro h q' hq' p' hp' value hqvalue hpvalue
    obtain ⟨q, hq, rfl⟩ := hmem.mp hq'
    obtain ⟨p, hp, rfl⟩ := hmem.mp hp'
    have hsame : q = p := by
      split_ifs at hqvalue hpvalue with hqid hpid hpid
      · exact eq_of_mediaId hq hp (hqid.trans hpid.symm)
      · obtain rfl : q = r := eq_of_mediaId hq hr hqid
        exact (h value hqvalue p hp hpvalue).symm
      · obtain rfl : p = r := eq_of_mediaId hp hr hpid
        exact h value hpvalue q hq hqvalue
      · exact hunique q hq p hp value hqvalue hpvalue
    rw [hsame]

end Column

end MediaMappings

/-- The columns that a lookup goes by, with the backend. -/
def pathColumn (r : MediaMapping) : Option (Text × Text) := some (r.backendId, r.sourcePath)

def fileIdColumn (r : MediaMapping) : Option (Text × Text) :=
  r.providerFileId.map fun fileId => (r.backendId, fileId)

/-- At most one row of a backend for a path, and for a file id that is not null. -/
structure OneToOne (t : MediaMappings) : Prop where
  path : t.Unique pathColumn
  fileId : t.Unique fileIdColumn

/-- It does not matter which row the database returns first. -/
def Unambiguous (t : MediaMappings) : Prop :=
  ∀ (choice choice' : RowChoice) (backendId : Text) (providerFileId : Option Text)
    (sourcePath : Text), t.findExistingMapping choice backendId providerFileId sourcePath =
      t.findExistingMapping choice' backendId providerFileId sourcePath

/-- A call does not give a row the path, or the file id, of another row of its backend. -/
def Respects (sha1 : List UInt8 → Vector UInt8 20) (t : MediaMappings) : Call → Prop
  | .getOrCreate c =>
      (∀ fileId ∈ truthy c.providerFileId, ∀ r ∈ t.ofFileId c.backendId fileId,
        ∀ s ∈ t.ofPath c.backendId c.normalizedSourcePath, s = r) ∧
      (c.providerFileId = some [] → t.ofPath c.backendId c.normalizedSourcePath = [] →
        uuid5 sha1 c.key ∉ t.ids → t.ofFileId c.backendId [] = [])
  | .updateProviderFileId mediaId providerFileId =>
      ∀ r ∈ t.rows, r.mediaId = mediaId → ∀ s ∈ t.ofFileId r.backendId providerFileId, s = r

section Columns
variable {backendId sourcePath fileId : Text} {r : MediaMapping}

theorem mem_ofPath : r ∈ t.ofPath backendId sourcePath ↔
    r ∈ t.rows ∧ pathColumn r = some (backendId, sourcePath) := by
  simp [MediaMappings.ofPath, pathColumn]

theorem mem_ofFileId : r ∈ t.ofFileId backendId fileId ↔
    r ∈ t.rows ∧ fileIdColumn r = some (backendId, fileId) := by
  simp [MediaMappings.ofFileId, fileIdColumn, and_comm]

theorem length_le_one_of_nodup {rows : List MediaMapping} (hnodup : rows.Nodup)
    (h : ∀ r ∈ rows, ∀ s ∈ rows, r = s) : rows.length ≤ 1 := by
  cases rows with
  | nil => exact Nat.zero_le 1
  | cons r rest =>
      cases rest with
      | nil => exact Nat.le_refl 1
      | cons s rest =>
          obtain rfl := h r List.mem_cons_self s (List.mem_cons_of_mem r List.mem_cons_self)
          exact absurd List.mem_cons_self (List.nodup_cons.mp hnodup).1

theorem first_eq (choice choice' : RowChoice) {rows : List MediaMapping}
    (h : ∀ r ∈ rows, ∀ s ∈ rows, r = s) : choice.first rows = choice'.first rows := by
  cases hfirst : choice.first rows with
  | none =>
      obtain rfl := choice.eq_nil hfirst
      cases hfirst' : choice'.first [] with
      | none => rfl
      | some r => exact absurd (choice'.mem hfirst') List.not_mem_nil
  | some r =>
      cases hfirst' : choice'.first rows with
      | none =>
          rw [choice'.eq_nil hfirst'] at hfirst
          exact absurd (choice.mem hfirst) List.not_mem_nil
      | some s => rw [h r (choice.mem hfirst) s (choice'.mem hfirst')]

theorem OneToOne.unambiguous (h : OneToOne t) : Unambiguous t := by
  intro choice choice' backendId providerFileId sourcePath
  have hpath : choice.first (t.ofPath backendId sourcePath) =
      choice'.first (t.ofPath backendId sourcePath) := by
    refine first_eq choice choice' fun r hr s hs => ?_
    rw [mem_ofPath] at hr hs
    exact h.path r hr.1 s hs.1 _ hr.2 hs.2
  have hfile : ∀ fileId, choice.first (t.ofFileId backendId fileId) =
      choice'.first (t.ofFileId backendId fileId) := by
    refine fun fileId => first_eq choice choice' fun r hr s hs => ?_
    rw [mem_ofFileId] at hr hs
    exact h.fileId r hr.1 s hs.1 _ hr.2 hs.2
  unfold MediaMappings.findExistingMapping
  rw [hpath, funext hfile]

/-- In numbers of rows. -/
theorem OneToOne.length_ofPath_le (h : OneToOne t) (backendId sourcePath : Text) :
    (t.ofPath backendId sourcePath).length ≤ 1 := by
  apply length_le_one_of_nodup (t.unique.of_map.filter _)
  intro r hr s hs
  rw [← MediaMappings.ofPath, mem_ofPath] at hr hs
  exact h.path r hr.1 s hs.1 _ hr.2 hs.2

end Columns

section Steps
variable {c : GetOrCreate} {r : MediaMapping}

theorem RowChoice.first_eq_none {choice : RowChoice} {rows : List MediaMapping} :
    choice.first rows = none ↔ rows = [] := by
  refine ⟨choice.eq_nil, ?_⟩
  rintro rfl
  cases hfirst : choice.first [] with
  | none => rfl
  | some r => exact absurd (choice.mem hfirst) List.not_mem_nil

theorem find_eq_none : c.find t = none ↔
    (∀ fileId ∈ truthy c.providerFileId, t.ofFileId c.backendId fileId = []) ∧
      t.ofPath c.backendId c.normalizedSourcePath = [] := by
  simp only [GetOrCreate.find, MediaMappings.findExistingMapping, Option.or_eq_none_iff,
    Option.bind_eq_none_iff, RowChoice.first_eq_none, Option.mem_def]

/-- A row is found by the file id, or by the path where no row has the file id. -/
theorem find_eq_some (h : c.find t = some r) :
    (∃ fileId ∈ truthy c.providerFileId, r ∈ t.ofFileId c.backendId fileId) ∨
      ((∀ fileId ∈ truthy c.providerFileId, t.ofFileId c.backendId fileId = []) ∧
        r ∈ t.ofPath c.backendId c.normalizedSourcePath) := by
  simp only [GetOrCreate.find, MediaMappings.findExistingMapping, Option.or_eq_some_iff,
    Option.bind_eq_some_iff, Option.bind_eq_none_iff, RowChoice.first_eq_none] at h
  rcases h with ⟨fileId, hfile, hfirst⟩ | ⟨hnone, hfirst⟩
  · exact .inl ⟨fileId, hfile, c.choice.mem hfirst⟩
  · exact .inr ⟨hnone, c.choice.mem hfirst⟩

theorem refreshed_mediaId (r : MediaMapping) : (c.refreshed r).mediaId = r.mediaId := rfl

theorem perform_of_find (h : c.find t = some r) :
    (c.perform sha1 t).2 = t.update r.mediaId c.refreshed refreshed_mediaId := by
  simp only [GetOrCreate.perform, h]

/-- What a refreshed row must not meet, by column. -/
theorem oneToOne_refreshed_iff (h : OneToOne t) (hfind : c.find t = some r) (hr : r ∈ t.rows) :
    OneToOne (c.perform sha1 t).2 ↔
      (∀ s ∈ t.ofPath r.backendId c.normalizedSourcePath, s = r) ∧
        ∀ value ∈ fileIdColumn (c.refreshed r), ∀ s ∈ t.rows,
          fileIdColumn s = some value → s = r := by
  rw [perform_of_find hfind]
  have hpath := MediaMappings.unique_update h.path hr (refreshed_mediaId (c := c))
  have hfile := MediaMappings.unique_update h.fileId hr (refreshed_mediaId (c := c))
  constructor
  · intro hnext
    refine ⟨fun s hs => ?_, hfile.mp hnext.fileId⟩
    rw [mem_ofPath] at hs
    exact hpath.mp hnext.path _ rfl s hs.1 hs.2
  · rintro ⟨hfree, hkept⟩
    refine ⟨hpath.mpr fun value hvalue s hs hsame => ?_, hfile.mpr hkept⟩
    exact hfree s (mem_ofPath.mpr ⟨hs, hsame.trans hvalue.symm⟩)

/-- A row found by the file id keeps it, and has to find its new path free. -/
theorem oneToOne_found_by_fileId (h : OneToOne t) (hfind : c.find t = some r) {fileId : Text}
    (hfile : fileId ∈ truthy c.providerFileId) (hr : r ∈ t.ofFileId c.backendId fileId) :
    OneToOne (c.perform sha1 t).2 ↔ Respects sha1 t (.getOrCreate c) := by
  rw [mem_ofFileId] at hr
  have hbackend : r.backendId = c.backendId := by
    obtain ⟨own, hown, hpair⟩ := Option.map_eq_some_iff.mp hr.2
    exact (Prod.ext_iff.mp hpair).1
  have hfileColumn : fileIdColumn (c.refreshed r) = some (c.backendId, fileId) := by
    rw [fileIdColumn, GetOrCreate.refreshed, Option.mem_def.mp hfile, hbackend]
    rfl
  have hkept : ∀ value ∈ fileIdColumn (c.refreshed r), ∀ s ∈ t.rows,
      fileIdColumn s = some value → s = r := by
    rintro value hvalue s hs hsame
    rw [hfileColumn] at hvalue
    obtain rfl := Option.some.inj hvalue
    exact h.fileId s hs r hr.1 _ hsame hr.2
  rw [oneToOne_refreshed_iff h hfind hr.1, and_iff_left hkept, hbackend, Respects]
  have hempty : c.providerFileId ≠ some [] := by
    intro heq
    rw [heq] at hfile
    exact Option.some_ne_none _ hfile.symm
  rw [and_iff_left fun heq => absurd heq hempty]
  constructor
  · intro hfree other hother r' hr' s hs
    obtain rfl : other = fileId := Option.mem_unique hother hfile
    rw [mem_ofFileId] at hr'
    rw [h.fileId r' hr'.1 r hr.1 _ hr'.2 hr.2]
    exact hfree s hs
  · intro hrespects s hs
    exact hrespects fileId hfile r (mem_ofFileId.mpr hr) s hs

/-- A row found by the path keeps it, and no row has its new file id. -/
theorem oneToOne_found_by_path (h : OneToOne t) (hfind : c.find t = some r)
    (hnone : ∀ fileId ∈ truthy c.providerFileId, t.ofFileId c.backendId fileId = [])
    (hr : r ∈ t.ofPath c.backendId c.normalizedSourcePath) :
    OneToOne (c.perform sha1 t).2 ∧ Respects sha1 t (.getOrCreate c) := by
  have hnonempty := List.ne_nil_of_mem hr
  rw [mem_ofPath] at hr
  have hbackend : r.backendId = c.backendId := (Prod.ext_iff.mp (Option.some.inj hr.2)).1
  constructor
  · rw [oneToOne_refreshed_iff h hfind hr.1]
    constructor
    · intro s hs
      rw [mem_ofPath, hbackend] at hs
      exact h.path s hs.1 r hr.1 _ hs.2 hr.2
    · intro value hvalue s hs hsame
      cases hfile : truthy c.providerFileId with
      | none =>
          have hown : fileIdColumn (c.refreshed r) = fileIdColumn r := by
            rw [fileIdColumn, GetOrCreate.refreshed, hfile, Option.none_or, fileIdColumn]
          exact h.fileId s hs r hr.1 value hsame (hown ▸ hvalue)
      | some fileId =>
          have hnew : fileIdColumn (c.refreshed r) = some (c.backendId, fileId) := by
            rw [fileIdColumn, GetOrCreate.refreshed, hfile, hbackend]
            rfl
          rw [hnew] at hvalue
          obtain rfl := Option.some.inj hvalue
          exact absurd (mem_ofFileId.mpr ⟨hs, hsame⟩)
            (hnone fileId hfile ▸ List.not_mem_nil)
  · refine ⟨fun fileId hfile other hother => ?_, fun _ hfree => absurd hfree hnonempty⟩
    rw [hnone fileId hfile] at hother
    exact absurd hother List.not_mem_nil

/-- A new row has its path to itself; only the empty file id was not looked for. -/
theorem oneToOne_created (h : OneToOne t) (hfind : c.find t = none) :
    OneToOne (c.perform sha1 t).2 ↔ Respects sha1 t (.getOrCreate c) := by
  obtain ⟨hnone, hfree⟩ := find_eq_none.mp hfind
  have hfirst : ∀ fileId ∈ truthy c.providerFileId, ∀ r ∈ t.ofFileId c.backendId fileId,
      ∀ s ∈ t.ofPath c.backendId c.normalizedSourcePath, s = r := by
    intro fileId hfile r hr
    rw [hnone fileId hfile] at hr
    exact absurd hr List.not_mem_nil
  rw [Respects, and_iff_right hfirst, forall_prop_of_true hfree]
  by_cases htaken : uuid5 sha1 c.key ∈ t.ids
  · rw [GetOrCreate.perform_of_taken hfind htaken]
    exact iff_of_true h fun _ hnew => absurd htaken hnew
  · obtain ⟨t', hinsert⟩ : ∃ t', t.insert (c.created sha1) = some t' := by
      rw [← Option.ne_none_iff_exists', Ne, MediaMappings.insert_eq_none_iff,
        GetOrCreate.created_mediaId]
      exact htaken
    have hnext : (c.perform sha1 t).2 = t' := by
      simp only [GetOrCreate.perform, hfind, hinsert]
    have hpath : t'.Unique pathColumn := by
      rw [MediaMappings.unique_insert h.path hinsert]
      rintro value hvalue s hs hsame
      exact absurd (mem_ofPath.mpr ⟨hs, hsame.trans hvalue.symm⟩) (hfree ▸ List.not_mem_nil)
    rw [hnext, forall_prop_of_true htaken]
    have hfile : OneToOne t' ↔ t'.Unique fileIdColumn :=
      ⟨fun hnew => hnew.fileId, fun hunique => ⟨hpath, hunique⟩⟩
    rw [hfile, MediaMappings.unique_insert h.fileId hinsert]
    have hcolumn : fileIdColumn (c.created sha1) =
        c.providerFileId.map fun fileId => (c.backendId, fileId) := rfl
    rw [hcolumn]
    constructor
    · intro hnew hempty
      rw [hempty] at hnew
      refine List.eq_nil_iff_forall_not_mem.mpr fun s hs => ?_
      rw [mem_ofFileId] at hs
      exact hnew _ rfl s hs.1 hs.2
    · intro hrespects value hvalue s hs hsame
      obtain ⟨fileId, hgiven, rfl⟩ := Option.map_eq_some_iff.mp hvalue
      have hnone' : t.ofFileId c.backendId fileId = [] := by
        by_cases hempty : fileId = []
        · subst hempty
          exact hrespects hgiven
        · exact hnone fileId (hgiven ▸ truthy_of_ne_nil hempty)
      exact absurd (mem_ofFileId.mpr ⟨hs, hsame⟩) (hnone' ▸ List.not_mem_nil)

theorem oneToOne_updated (h : OneToOne t) (mediaId providerFileId : Text) :
    let call := Call.updateProviderFileId mediaId providerFileId
    OneToOne (call.perform sha1 t).2 ↔ Respects sha1 t call := by
  intro call
  cases hrow : t.getByMediaId mediaId with
  | none =>
      have habsent : ∀ r ∈ t.rows, r.mediaId ≠ mediaId := by
        simpa [MediaMappings.getByMediaId] using hrow
      simp only [call, Call.perform, hrow, Respects]
      exact iff_of_true h fun r hr hid => absurd hid (habsent r hr)
  | some r =>
      have hr : r ∈ t.rows := List.mem_of_find?_eq_some hrow
      obtain rfl : r.mediaId = mediaId := by simpa using List.find?_some hrow
      simp only [call, Call.perform, hrow, Respects]
      set f : MediaMapping → MediaMapping := fun q =>
        { q with providerFileId := some providerFileId } with hf
      have hkept : ∀ q, (f q).mediaId = q.mediaId := fun _ => rfl
      have hpath : (t.update r.mediaId f hkept).Unique pathColumn := by
        rw [MediaMappings.unique_update h.path hr]
        rintro value hvalue s hs hsame
        exact h.path s hs r hr value hsame hvalue
      have hfile := MediaMappings.unique_update h.fileId hr hkept
      constructor
      · intro hnext r' hr' hid s hs
        obtain rfl : r' = r := MediaMappings.eq_of_mediaId hr' hr hid
        rw [mem_ofFileId] at hs
        exact hfile.mp hnext.fileId _ rfl s hs.1 hs.2
      · intro hrespects
        refine ⟨hpath, hfile.mpr fun value hvalue s hs hsame => ?_⟩
        exact hrespects r hr rfl s (mem_ofFileId.mpr ⟨hs, hsame.trans hvalue.symm⟩)

/-- Every call goes through. -/
theorem exec_total (calls : List Call) : ∃ last, exec (step sha1) t calls = some last := by
  induction calls generalizing t with
  | nil => exact ⟨t, rfl⟩
  | cons call calls ih => exact ih

theorem oneToOne_step_iff (h : OneToOne t) (hstep : step sha1 t call = some t') :
    OneToOne t' ↔ Respects sha1 t call := by
  obtain rfl := Option.some.inj hstep
  cases call with
  | updateProviderFileId mediaId providerFileId => exact oneToOne_updated h _ _
  | getOrCreate c =>
      change OneToOne (c.perform sha1 t).2 ↔ _
      cases hfind : c.find t with
      | some r =>
          rcases find_eq_some hfind with ⟨fileId, hfile, hr⟩ | ⟨hnone, hr⟩
          · exact oneToOne_found_by_fileId h hfind hfile hr
          · obtain ⟨hnext, hrespects⟩ := oneToOne_found_by_path h hfind hnone hr
            exact iff_of_true hnext hrespects
      | none => exact oneToOne_created h hfind

/-- The table stays one-to-one exactly as long as the calls respect the other rows. -/
theorem oneToOne_iff_along (sha1 : List UInt8 → Vector UInt8 20) (calls : List Call) :
    Throughout (step sha1) (fun t => OneToOne t ∧ Unambiguous t) .empty calls ↔
      Along (step sha1) (Respects sha1) .empty calls := by
  have hempty : OneToOne .empty := by
    constructor
    · intro r hr
      exact absurd hr List.not_mem_nil
    · intro r hr
      exact absurd hr List.not_mem_nil
  obtain ⟨last, hrun⟩ : ∃ last, exec (step sha1) .empty calls = some last := exec_total calls
  rw [← throughout_iff_along (fun t call t' => oneToOne_step_iff) hempty hrun]
  constructor
  · exact fun h pre hpre t ht => (h pre hpre t ht).1
  · exact fun h pre hpre t ht => ⟨h pre hpre t ht, (h pre hpre t ht).unambiguous⟩

/-- The file of `/a` is moved onto `/b`, which is another file. -/
def movedOnto : List Call := [fileAt "F" "/a", fileAt "G" "/b", fileAt "F" "/b"]

/-- Both rows then have the path `/b`. -/
theorem movedOnto_not_oneToOne :
    ¬ Throughout (step digestOf) (fun t => OneToOne t ∧ Unambiguous t) .empty movedOnto := by
  intro h
  have hend := (h movedOnto (List.prefix_refl _) _ rfl).1.length_ofPath_le "quark".toList "/b".toList
  exact absurd hend (by decide +kernel)

end Steps

end SmartMedia.Mapping
