import SmartMedia.Library.PartialRun
import SmartMedia.Mapping.MediaMappingService
import Mathlib.Data.Set.Function

/-!
# Media ids

A media id is derived from the file id or the path that a file has when its row is added. No
row is ever removed and no call writes a media id, so that an id resolves for good; but the
row is looked up by what it holds now, and once it holds something else its old name can be
asked for again.
-/
namespace SmartMedia.Mapping
open PartialRun Media Strm PythonText

variable {sha1 : List UInt8 → Vector UInt8 20} {t t' : MediaMappings} {call : Call}

/-- What the media id of an added row is derived from. -/
def GetOrCreate.key (c : GetOrCreate) : Text :=
  c.backendId ++ ':' :: (truthy c.providerFileId).getD c.normalizedSourcePath

/-- The keys of the calls, for the assumption that `uuid5` is injective on them. -/
def keys (calls : List Call) : Set Text := {key | ∃ c, .getOrCreate c ∈ calls ∧ c.key = key}

/-- The keys of the calls that find no row, in their order. -/
def missedKeys (sha1 : List UInt8 → Vector UInt8 20) : MediaMappings → List Call → List Text
  | _, [] => []
  | t, .getOrCreate c :: calls =>
      if c.find t = none then c.key :: missedKeys sha1 (c.perform sha1 t).2 calls
      else missedKeys sha1 (c.perform sha1 t).2 calls
  | t, .updateProviderFileId mediaId providerFileId :: calls =>
      missedKeys sha1 ((Call.updateProviderFileId mediaId providerFileId).perform sha1 t).2 calls

/-- A call goes through, with or without a row to return. -/
def Succeeds (sha1 : List UInt8 → Vector UInt8 20) (t : MediaMappings) (call : Call) : Prop :=
  ∃ r, (call.perform sha1 t).1 = .ok r

def Resolves (mediaId : Text) (t : MediaMappings) : Prop := t.getByMediaId mediaId ≠ none

/-- Every media id that a call of the run returns resolves from then on. -/
def KeepResolving (sha1 : List UInt8 → Vector UInt8 20) (calls : List Call) : Prop :=
  ∀ pre call post, calls = pre ++ call :: post →
    ∀ t, exec (step sha1) .empty pre = some t →
      ∀ r, (call.perform sha1 t).1 = .ok (some r) →
        Throughout (step sha1) (Resolves r.mediaId) (call.perform sha1 t).2 post

namespace MediaMappings

def ids (t : MediaMappings) : List Text := t.rows.map (·.mediaId)

theorem resolves_iff {mediaId : Text} : Resolves mediaId t ↔ mediaId ∈ t.ids := by
  rw [Resolves, getByMediaId, Ne, List.find?_eq_none, ids, List.mem_map]
  simp only [decide_eq_true_eq, not_forall, not_not, exists_prop]

theorem ids_update (t : MediaMappings) (mediaId : Text) (f : MediaMapping → MediaMapping)
    (hf : ∀ r, (f r).mediaId = r.mediaId) : (t.update mediaId f hf).ids = t.ids := by
  rw [ids, update, List.map_map]
  refine List.map_congr_left fun r _ => ?_
  simp only [Function.comp_apply]
  split
  · exact hf r
  · rfl

theorem insert_eq_none_iff {r : MediaMapping} : t.insert r = none ↔ r.mediaId ∈ t.ids := by
  rw [insert]
  split
  · simpa
  · simpa

theorem ids_insert {r : MediaMapping} (h : t.insert r = some t') : t'.ids = t.ids ++ [r.mediaId] := by
  rw [insert] at h
  split at h
  · cases h
  · obtain rfl := Option.some.inj h
    rw [ids, List.map_append, List.map_singleton, ids]

theorem mem_of_findExistingMapping {choice : RowChoice} {backendId sourcePath : Text}
    {providerFileId : Option Text} {r : MediaMapping}
    (h : t.findExistingMapping choice backendId providerFileId sourcePath = some r) :
    r ∈ t.rows := by
  rw [findExistingMapping, Option.or_eq_some_iff, Option.bind_eq_some_iff] at h
  rcases h with ⟨fileId, -, hfirst⟩ | ⟨-, hfirst⟩
  · exact List.mem_of_mem_filter (choice.mem hfirst)
  · exact List.mem_of_mem_filter (choice.mem hfirst)

end MediaMappings

namespace GetOrCreate
variable {c : GetOrCreate}

theorem created_mediaId : (c.created sha1).mediaId = uuid5 sha1 c.key := by
  unfold created buildMediaId key
  cases hfid : c.providerFileId with
  | none => rfl
  | some fileId =>
      by_cases hempty : fileId = []
      · simp [hempty]
      · simp [hempty, truthy_of_ne_nil]

/-- One call, for the ids: a found row keeps its own, a missing one takes that of the key. -/
theorem ids_perform_of_find {r : MediaMapping} (h : c.find t = some r) :
    (∃ s, (c.perform sha1 t).1 = .ok s) ∧ (c.perform sha1 t).2.ids = t.ids := by
  simp only [perform, h]
  exact ⟨⟨_, rfl⟩, t.ids_update _ _ _⟩

theorem perform_of_taken (h : c.find t = none) (htaken : uuid5 sha1 c.key ∈ t.ids) :
    c.perform sha1 t = (.error "UNIQUE constraint failed: media_mappings.media_id", t) := by
  have hinsert : t.insert (c.created sha1) = none := by
    rw [MediaMappings.insert_eq_none_iff, created_mediaId]
    exact htaken
  simp only [perform, h, hinsert]

theorem ids_perform_of_free (h : c.find t = none) (hfree : uuid5 sha1 c.key ∉ t.ids) :
    (∃ s, (c.perform sha1 t).1 = .ok s) ∧
      (c.perform sha1 t).2.ids = t.ids ++ [uuid5 sha1 c.key] := by
  cases hinsert : t.insert (c.created sha1) with
  | none =>
      rw [MediaMappings.insert_eq_none_iff, created_mediaId] at hinsert
      exact absurd hinsert hfree
  | some t' =>
      have hids := MediaMappings.ids_insert hinsert
      rw [created_mediaId] at hids
      simp only [perform, h, hinsert]
      exact ⟨⟨_, rfl⟩, hids⟩

theorem returned_mem {r : MediaMapping} (h : (c.perform sha1 t).1 = .ok r) :
    r.mediaId ∈ (c.perform sha1 t).2.ids := by
  cases hfind : c.find t with
  | none =>
      by_cases htaken : uuid5 sha1 c.key ∈ t.ids
      · rw [perform_of_taken hfind htaken] at h
        cases h
      · have hids := (ids_perform_of_free hfind htaken).2
        cases hinsert : t.insert (c.created sha1) with
        | none => simp [perform, hfind, hinsert] at h
        | some t' =>
            have hr : r = c.created sha1 := by simpa [perform, hfind, hinsert] using h.symm
            rw [hids, hr, created_mediaId]
            exact List.mem_append_right _ List.mem_cons_self
  | some s =>
      have hr : r = c.refreshed s := by simpa [perform, hfind] using h.symm
      rw [(ids_perform_of_find hfind).2, hr]
      exact List.mem_map.mpr ⟨s, MediaMappings.mem_of_findExistingMapping hfind, rfl⟩

end GetOrCreate

theorem ids_updateProviderFileId (sha1 : List UInt8 → Vector UInt8 20) (t : MediaMappings)
    (mediaId providerFileId : Text) :
    let result := (Call.updateProviderFileId mediaId providerFileId).perform sha1 t
    (∃ r, result.1 = .ok r) ∧ result.2.ids = t.ids := by
  intro result
  cases hrow : t.getByMediaId mediaId with
  | none =>
      simp only [result, Call.perform, hrow]
      exact ⟨⟨_, rfl⟩, trivial⟩
  | some r =>
      simp only [result, Call.perform, hrow, MediaMappings.ids_update, and_true]
      exact ⟨_, rfl⟩

section Runs
variable {calls : List Call}

/-- What the database is asked to add has a new media id, and the call succeeds. -/
def NoCollision (sha1 : List UInt8 → Vector UInt8 20) (t : MediaMappings) (call : Call) : Prop :=
  (∀ c, call = .getOrCreate c → c.find t = none → (c.created sha1).mediaId ∉ t.ids) ∧
    Succeeds sha1 t call

theorem ids_subset_step (h : step sha1 t call = some t') : t.ids ⊆ t'.ids := by
  obtain rfl := Option.some.inj h
  cases call with
  | updateProviderFileId mediaId providerFileId =>
      rw [(ids_updateProviderFileId sha1 t mediaId providerFileId).2]
      exact List.Subset.refl _
  | getOrCreate c =>
      change t.ids ⊆ (c.perform sha1 t).2.ids
      cases hfind : c.find t with
      | some r =>
          rw [(GetOrCreate.ids_perform_of_find hfind).2]
          exact List.Subset.refl _
      | none =>
          by_cases htaken : uuid5 sha1 c.key ∈ t.ids
          · rw [GetOrCreate.perform_of_taken hfind htaken]
            exact List.Subset.refl _
          · rw [(GetOrCreate.ids_perform_of_free hfind htaken).2]
            exact List.subset_append_left _ _

theorem returned_resolves {r : MediaMapping} (h : (call.perform sha1 t).1 = .ok (some r)) :
    Resolves r.mediaId (call.perform sha1 t).2 := by
  rw [MediaMappings.resolves_iff]
  cases call with
  | getOrCreate c =>
      apply GetOrCreate.returned_mem
      simp only [Call.perform] at h
      cases hresult : (c.perform sha1 t).1 with
      | error message =>
          rw [hresult] at h
          cases h
      | ok s =>
          rw [hresult] at h
          cases h
          rfl
  | updateProviderFileId mediaId providerFileId =>
      rw [(ids_updateProviderFileId sha1 t mediaId providerFileId).2]
      cases hrow : t.getByMediaId mediaId with
      | none =>
          simp only [Call.perform, hrow] at h
          cases h
      | some s =>
          simp only [Call.perform, hrow] at h
          cases h
          exact List.mem_map.mpr ⟨s, List.mem_of_find?_eq_some hrow, rfl⟩

theorem along_step {P : MediaMappings → Call → Prop} {calls : List Call} :
    Along (step sha1) P t (call :: calls) ↔
      P t call ∧ Along (step sha1) P (call.perform sha1 t).2 calls := by
  rw [along_cons]
  refine and_congr_right fun _ => ⟨fun h => h _ rfl, fun h u hu => ?_⟩
  exact Option.some.inj hu ▸ h

/-- A returned media id resolves in every later state, whatever the calls. -/
theorem keepResolving (sha1 : List UInt8 → Vector UInt8 20) (calls : List Call) :
    KeepResolving sha1 calls := by
  rintro pre call post - t - r hr
  have hkept : ∀ u call' u', Resolves r.mediaId u → step sha1 u call' = some u' →
      Resolves r.mediaId u' := by
    intro u call' u' hu hstep
    rw [MediaMappings.resolves_iff] at hu ⊢
    exact ids_subset_step hstep hu
  intro done _ u hu
  exact invariant_of_step hkept (returned_resolves hr) hu

/-- A `get_or_create` collides exactly if it misses and its media id is taken. -/
theorem noCollision_getOrCreate {c : GetOrCreate} :
    NoCollision sha1 t (.getOrCreate c) ↔ (c.find t = none → uuid5 sha1 c.key ∉ t.ids) := by
  constructor
  · intro h hfind
    rw [← GetOrCreate.created_mediaId]
    exact h.1 c rfl hfind
  · intro h
    refine ⟨?_, ?_⟩
    · intro d hd hfind
      cases hd
      rw [GetOrCreate.created_mediaId]
      exact h hfind
    · obtain ⟨s, hs⟩ : ∃ s, (c.perform sha1 t).1 = .ok s := by
        cases hfind : c.find t with
        | none => exact (GetOrCreate.ids_perform_of_free hfind (h hfind)).1
        | some r => exact (GetOrCreate.ids_perform_of_find hfind).1
      refine ⟨some s, ?_⟩
      simp only [Call.perform, hs]
      rfl

/-- The invariant: the ids of the table are those of the keys missed so far. -/
theorem along_noCollision_iff {used : List Text} {all : Set Text}
    (hids : t.ids = used.map (uuid5 sha1)) (hused : ∀ key ∈ used, key ∈ all)
    (hnodup : used.Nodup) (hinj : Set.InjOn (uuid5 sha1) all) (hall : keys calls ⊆ all) :
    Along (step sha1) (NoCollision sha1) t calls ↔ (used ++ missedKeys sha1 t calls).Nodup := by
  induction calls generalizing t used with
  | nil => simp [missedKeys, hnodup]
  | cons call calls ih =>
      have hrest : keys calls ⊆ all := by
        rintro key ⟨c, hc, rfl⟩
        exact hall ⟨c, List.mem_cons_of_mem _ hc, rfl⟩
      rw [along_step]
      cases call with
      | updateProviderFileId mediaId providerFileId =>
          obtain ⟨hok, hsame⟩ := ids_updateProviderFileId sha1 t mediaId providerFileId
          rw [ih (hsame.trans hids) hused hnodup hrest, missedKeys]
          exact and_iff_right ⟨fun c hc => Call.noConfusion hc, hok⟩
      | getOrCreate c =>
          have hkey : c.key ∈ all := hall ⟨c, List.mem_cons_self, rfl⟩
          have htaken : uuid5 sha1 c.key ∈ t.ids ↔ c.key ∈ used := by
            rw [hids, List.mem_map]
            constructor
            · rintro ⟨key, hmem, hsame⟩
              exact hinj (hused key hmem) hkey hsame ▸ hmem
            · exact fun hmem => ⟨c.key, hmem, rfl⟩
          rw [noCollision_getOrCreate, missedKeys]
          change _ ∧ Along (step sha1) (NoCollision sha1) (c.perform sha1 t).2 calls ↔ _
          cases hfind : c.find t with
          | some r =>
              have hsame : (c.perform sha1 t).2.ids = t.ids :=
                (GetOrCreate.ids_perform_of_find hfind).2
              rw [ih (hsame.trans hids) hused hnodup hrest, if_neg (Option.some_ne_none r)]
              exact and_iff_right fun h => absurd h (Option.some_ne_none r)
          | none =>
              rw [if_pos rfl, htaken]
              by_cases hmem : c.key ∈ used
              · refine iff_of_false (fun h => h.1 rfl hmem) fun h => ?_
                exact (List.nodup_append.mp h).2.2 c.key hmem c.key List.mem_cons_self rfl
              · have hids' := (GetOrCreate.ids_perform_of_free hfind (htaken.not.mpr hmem)).2
                have hnodup' : (used ++ [c.key]).Nodup := by
                  rw [List.nodup_append']
                  exact ⟨hnodup, List.nodup_singleton _, List.disjoint_singleton.mpr hmem⟩
                rw [List.append_cons used, ← ih _ _ hnodup' hrest]
                · exact and_iff_right fun _ => hmem
                · rw [hids', hids, List.map_append, List.map_singleton]
                · intro key hin
                  rcases List.mem_append.mp hin with hold | hnew
                  · exact hused key hold
                  · exact List.mem_singleton.mp hnew ▸ hkey

/-- Media ids are unique and lasting exactly if no key is missed twice. -/
theorem mediaIds_unique_iff (sha1 : List UInt8 → Vector UInt8 20) (calls : List Call)
    (hinj : Set.InjOn (uuid5 sha1) (keys calls)) :
    (Along (step sha1) (NoCollision sha1) .empty calls ∧ KeepResolving sha1 calls) ↔
      (missedKeys sha1 .empty calls).Nodup := by
  rw [and_iff_left (keepResolving sha1 calls)]
  have hused : ∀ key ∈ ([] : List Text), key ∈ keys calls := by simp
  exact along_noCollision_iff rfl hused List.nodup_nil hinj (Set.Subset.refl _)

end Runs

section Renamed

/-- The SHA-1 digests of `quark:F` and `quark:G` in the URL namespace. -/
def digestOf (bytes : List UInt8) : Vector UInt8 20 :=
  if bytes.getLast? = some 0x46 then
    #v[0x66, 0xc9, 0xe2, 0x6c, 0xfe, 0x20, 0x78, 0xc8, 0x38, 0x7b, 0x6e, 0x04, 0xa7, 0x3f, 0xa4,
      0x8b, 0x45, 0xe7, 0x36, 0x0c]
  else
    #v[0x83, 0xc3, 0x26, 0xa1, 0xa1, 0x40, 0x34, 0x05, 0xc0, 0x70, 0x7b, 0x71, 0xca, 0x5c, 0x5c,
      0x89, 0x43, 0x04, 0xee, 0xae]

def fileAt (fileId sourcePath : String) : Call :=
  .getOrCreate { providerFileId := some fileId.toList, sourcePath := sourcePath.toList }

theorem keys_injOn : Set.InjOn (uuid5 digestOf) {"quark:F".toList, "quark:G".toList} := by
  have hne : uuid5 digestOf "quark:F".toList ≠ uuid5 digestOf "quark:G".toList := by
    decide +kernel
  rintro key (rfl | rfl) key' (rfl | rfl) h
  · rfl
  · exact absurd h hne
  · exact absurd h.symm hne
  · rfl

/-- `/a` is saved anew under the file id `G`; then its old file `F` turns up at `/b`. -/
def replacedFile : List Call := [fileAt "F" "/a", fileAt "G" "/a", fileAt "F" "/b"]

/-- The third call tries to add the media id of the first one again. -/
theorem replacedFile_collides :
    Set.InjOn (uuid5 digestOf) (keys replacedFile) ∧
      ¬ (Along (step digestOf) (NoCollision digestOf) .empty replacedFile ∧
        KeepResolving digestOf replacedFile) := by
  have hkeys : keys replacedFile ⊆ {"quark:F".toList, "quark:G".toList} := by
    rintro key ⟨c, hc, rfl⟩
    simp only [replacedFile, fileAt, List.mem_cons, Call.getOrCreate.injEq, List.not_mem_nil,
      or_false] at hc
    rcases hc with rfl | rfl | rfl
    · exact .inl (by decide)
    · exact .inr (by decide)
    · exact .inl (by decide)
  have hinj := keys_injOn.mono hkeys
  refine ⟨hinj, fun h => ?_⟩
  have hused : ∀ key ∈ ([] : List Text), key ∈ keys replacedFile := by simp
  rw [along_noCollision_iff rfl hused List.nodup_nil hinj (Set.Subset.refl _)] at h
  exact absurd h.1 (by decide +kernel)

/-- The file `F` moves from `/a` to `/b` and is replaced there. -/
theorem mediaIds_unique_moved :
    let calls := [fileAt "F" "/a", fileAt "F" "/b", fileAt "G" "/b", fileAt "G" "/c"]
    Along (step digestOf) (NoCollision digestOf) .empty calls ∧ KeepResolving digestOf calls := by
  intro calls
  have hkeys : keys calls ⊆ {"quark:F".toList, "quark:G".toList} := by
    rintro key ⟨c, hc, rfl⟩
    simp only [calls, fileAt, List.mem_cons, Call.getOrCreate.injEq, List.not_mem_nil,
      or_false] at hc
    rcases hc with rfl | rfl | rfl | rfl
    · exact .inl (by decide)
    · exact .inl (by decide)
    · exact .inr (by decide)
    · exact .inr (by decide)
  exact (mediaIds_unique_iff digestOf calls (keys_injOn.mono hkeys)).mpr (by decide +kernel)

end Renamed

end SmartMedia.Mapping
