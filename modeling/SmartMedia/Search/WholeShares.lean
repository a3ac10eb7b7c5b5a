import SmartMedia.Search.ShareSize

/-!
# Sizes of whole shares

A size should be that of all files within the depth limit, each folder counted once, or be missing.
The traversal leaves out what a failed listing does not show, and begins anew in each folder on top.
-/
namespace SmartMedia.Search
open PythonRegex DepthSearch

namespace Share

def children (share : Share) (fid : Text) : List Text := subfolders (share.entries fid)

/-- The folders on top. -/
def roots (share : Share) : List Text := subfolders share.root

/-- The sizes of the files of a folder. -/
def filesOf (share : Share) (fid : Text) : ℕ := fileSizes (share.entries fid)

/-- The files on top and those of the folders within the depth limit. -/
def exactSize (share : Share) : ℕ :=
  fileSizes share.root +
    ((within share.children maxDepth share.roots).dedup.map share.filesOf).sum

/-- The ids of all folders. -/
def nodes (share : Share) : List Text :=
  share.roots ++ share.folders.flatMap fun folder => subfolders folder.2

/-- More turns than a traversal can take. -/
def bound (share : Share) : ℕ := 1 + (share.nodes.map fun fid => (share.children fid).length).sum

end Share

/-- Every page with entries is listed, on top without an error code; the number reported on top does
not end the listing early; the folders on top have nothing in common within the depth limit, and none
of their folders is cut off where it is met first. -/
structure Whole (share : Share) (outcome : Request → ℕ → Outcome) : Prop where
  top : ∀ page requests, share.root.drop ((page - 1) * 100) ≠ [] →
    outcome ⟨none, page⟩ requests ≠ .errorCode
  below : ∀ fid page requests, (share.entries fid).drop ((page - 1) * 100) ≠ [] →
    outcome ⟨some fid, page⟩ requests = .answered
  counted : share.root.length ≤ 100 ∨ 100 < share.totalCount
  apart : share.roots.Pairwise fun fid fid' => ∀ v ∈ within share.children maxDepth [fid],
    v ∉ within share.children maxDepth [fid']
  unshadowed : ∀ fid ∈ share.roots, Unshadowed share.children maxDepth fid

/-- There is no token, the first listing raises, or the share is listed as a whole. -/
def Sound (share : Share) (call : SizeCall) : Prop :=
  call.token = false ∨ call.outcome ⟨none, 1⟩ 1 = .raised ∨ Whole share call.outcome

section Termination
variable {share : Share} {outcome : Request → ℕ → Outcome} {fuel page requests : ℕ} {fid : Text}
  {remaining items : List Item}

theorem folderPages_isPrefix : (folderPages outcome fid remaining page requests).1 <+: remaining := by
  induction remaining, page, requests using folderPages.induct outcome fid with
  | case1 remaining page requests h | case2 remaining page requests h =>
      rw [folderPages, h]
      exact List.nil_prefix
  | case3 remaining page requests h hshort =>
      rw [folderPages, h]
      dsimp only
      split_ifs
      exact List.prefix_rfl
  | case4 remaining page requests h hlong _ _ _ ih =>
      rw [folderPages, h]
      dsimp only
      rw [if_neg hlong]
      conv_rhs => rw [← List.take_append_drop 100 remaining]
      exact List.prefix_append_right_inj _ |>.mpr ih

theorem subfolders_sublist (h : items <+: remaining) : (subfolders items).Sublist (subfolders remaining) :=
  h.sublist.filterMap _

theorem mem_nodes {c : Text} (h : c ∈ share.children fid) : c ∈ share.nodes := by
  rw [Share.nodes, List.mem_append]
  right
  rw [Share.children, Share.entries] at h
  cases hlookup : share.folders.lookup fid with
  | none =>
      rw [hlookup] at h
      cases h
  | some items =>
      rw [hlookup] at h
      obtain ⟨before, after, hfolders, -⟩ := List.lookup_eq_some_iff.mp hlookup
      refine List.mem_flatMap.mpr ⟨(fid, items), ?_, h⟩
      rw [hfolders]
      exact List.mem_append_right _ List.mem_cons_self

/-- Whatever is listed, a traversal ends. -/
theorem isSome_getFolderSize (hfid : fid ∈ share.nodes) (hfuel : share.bound ≤ fuel) :
    (getFolderSize share outcome fuel fid requests).isSome = true := by
  rw [getFolderSize, Option.isSome_map]
  have hsublist : ∀ s fid, (visitFolder share outcome s fid).1.Sublist (share.children fid) :=
    fun s fid => subfolders_sublist folderPages_isPrefix
  refine isSome_search share.nodes (fun fid => (share.children fid).length)
    (fun s v _ => (hsublist s v).length_le) ?_ ?_ ?_
  · intro s v _ c hc
    exact mem_nodes ((hsublist s v).subset hc)
  · intro e he
    rw [List.mem_singleton.mp he]
    exact hfid
  · rw [turns]
    simpa [Share.bound] using hfuel

theorem mem_roots_of_mem {fid : Text} (h : Item.folder fid ∈ share.root) : fid ∈ share.roots := by
  have hnamed : fid ≠ [] := fun hempty => share.root_named (hempty ▸ h)
  refine List.mem_filterMap.mpr ⟨_, h, ?_⟩
  rw [Item.fid?, if_pos hnamed]

theorem isSome_addItems (hitems : ∀ item ∈ items, item ∈ share.root) (hfuel : share.bound ≤ fuel)
    {totalSize requests : ℕ} :
    (addItems share outcome fuel items totalSize requests).isSome = true := by
  induction items generalizing totalSize requests with
  | nil => rfl
  | cons item items ih =>
      rw [List.forall_mem_cons] at hitems
      cases item with
      | file fileSize => exact ih hitems.2
      | other => exact ih hitems.2
      | folder fid =>
          have hfid : fid ∈ share.nodes :=
            List.mem_append_left _ (mem_roots_of_mem hitems.1)
          obtain ⟨found, hfound⟩ :=
            Option.isSome_iff_exists.mp (isSome_getFolderSize hfid hfuel)
          rw [addItems, hfound]
          exact ih hitems.2

theorem isSome_rootPages (hitems : ∀ item ∈ remaining, item ∈ share.root)
    (hfuel : share.bound ≤ fuel) {totalSize requests : ℕ} :
    (rootPages share outcome fuel remaining page totalSize requests).isSome = true := by
  induction hlength : remaining.length using Nat.strong_induction_on
    generalizing remaining page totalSize requests with
  | _ n ih =>
      rw [rootPages]
      cases outcome ⟨none, page⟩ requests with
      | errorCode => rfl
      | raised => rfl
      | answered =>
          dsimp only
          by_cases hempty : remaining = []
          · rw [if_pos hempty]
            rfl
          · have htake : ∀ item ∈ remaining.take 100, item ∈ share.root :=
              fun item h => hitems item (List.mem_of_mem_take h)
            obtain ⟨⟨total, requests'⟩, hadded⟩ :=
              Option.isSome_iff_exists.mp (isSome_addItems htake hfuel)
            rw [if_neg hempty, hadded, Option.bind_some]
            dsimp only
            split_ifs
            · rfl
            · refine ih _ ?_ (fun item h => hitems item (List.mem_of_mem_drop h)) rfl
              have hpositive := List.length_pos_of_ne_nil hempty
              rw [List.length_drop]
              omega

end Termination

section Listing
variable {share : Share} {outcome : Request → ℕ → Outcome} {fuel page requests : ℕ} {fid : Text}
  {remaining items : List Item}

/-- When its pages with entries are listed, a folder is read to its end. -/
theorem folderPages_eq (entries : List Item)
    (hanswered : ∀ page requests, entries.drop ((page - 1) * 100) ≠ [] →
      outcome ⟨some fid, page⟩ requests = .answered)
    (hpage : 1 ≤ page) (hremaining : remaining = entries.drop ((page - 1) * 100)) :
    (folderPages outcome fid remaining page requests).1 = remaining := by
  induction remaining, page, requests using folderPages.induct outcome fid with
  | case1 remaining page requests h | case2 remaining page requests h =>
      rw [folderPages, h]
      by_contra hne
      have hanswer := hanswered page requests fun hempty => hne (hremaining.trans hempty).symm
      rw [h] at hanswer
      cases hanswer
  | case3 remaining page requests h hshort =>
      rw [folderPages, h]
      dsimp only
      rw [if_pos hshort]
  | case4 remaining page requests h hlong _ _ _ ih =>
      rw [folderPages, h]
      dsimp only
      rw [if_neg hlong]
      dsimp only
      rw [ih (Nat.le_add_left 1 page) ?_, List.take_append_drop]
      rw [hremaining, List.drop_drop]
      congr 1
      omega

theorem visitFolder_eq (h : Whole share outcome) (state : ℕ × ℕ) (fid : Text) :
    (visitFolder share outcome state fid).1 = share.children fid ∧
      (visitFolder share outcome state fid).2.1 = state.1 + share.filesOf fid := by
  have hpages : (folderPages outcome fid (share.entries fid) 1 state.2).1 = share.entries fid :=
    folderPages_eq (share.entries fid) (h.below fid) le_rfl List.drop_zero.symm
  rw [visitFolder]
  dsimp only
  rw [hpages]
  exact ⟨rfl, rfl⟩

/-- The files of the folders within the depth limit below a folder on top. -/
def folderTotal (share : Share) (fid : Text) : ℕ :=
  ((within share.children maxDepth [fid]).dedup.map share.filesOf).sum

theorem getFolderSize_eq (h : Whole share outcome) (hroot : fid ∈ share.roots) {size requests' : ℕ}
    (hfound : getFolderSize share outcome fuel fid requests = some (size, requests')) :
    size = folderTotal share fid := by
  rw [getFolderSize, Option.map_eq_some_iff] at hfound
  obtain ⟨⟨visited, state⟩, hsearch, hstate⟩ := hfound
  obtain rfl : state = (size, requests') := hstate
  have htotal := search_total share.filesOf Prod.fst
    (fun state fid => (visitFolder_eq h state fid).1) (fun state fid => (visitFolder_eq h state fid).2)
    (h.unshadowed fid hroot) hsearch
  exact htotal.trans (Nat.zero_add _)

/-- What the entries add up to, if each folder on top counts on its own. -/
def itemsTotal (share : Share) (items : List Item) : ℕ :=
  fileSizes items + ((subfolders items).map (folderTotal share)).sum

theorem itemsTotal_cons (item : Item) (items : List Item) :
    itemsTotal share (item :: items) =
      item.size + (item.fid?.map (folderTotal share)).getD 0 + itemsTotal share items := by
  rw [itemsTotal, itemsTotal, fileSizes, fileSizes, subfolders, subfolders, List.map_cons,
    List.sum_cons]
  cases hfid : item.fid? with
  | none =>
      rw [List.filterMap_cons_none hfid, Option.map_none, Option.getD_none]
      omega
  | some fid =>
      rw [List.filterMap_cons_some hfid, List.map_cons, List.sum_cons, Option.map_some,
        Option.getD_some]
      omega

theorem itemsTotal_append (items items' : List Item) :
    itemsTotal share (items ++ items') = itemsTotal share items + itemsTotal share items' := by
  induction items with
  | nil => exact (Nat.zero_add _).symm
  | cons item items ih =>
      rw [List.cons_append, itemsTotal_cons, itemsTotal_cons, ih]
      omega

theorem addItems_eq (h : Whole share outcome) (hitems : ∀ item ∈ items, item ∈ share.root)
    {totalSize total requests' : ℕ}
    (hadded : addItems share outcome fuel items totalSize requests = some (total, requests')) :
    total = totalSize + itemsTotal share items := by
  induction items generalizing totalSize requests with
  | nil =>
      obtain ⟨rfl, -⟩ := Prod.mk.inj (Option.some.inj hadded)
      rfl
  | cons item items ih =>
      rw [List.forall_mem_cons] at hitems
      rw [itemsTotal_cons]
      cases item with
      | file fileSize =>
          rw [ih hitems.2 hadded, Item.size, Item.fid?, Option.map_none, Option.getD_none]
          omega
      | other =>
          rw [ih hitems.2 hadded, Item.size, Item.fid?, Option.map_none, Option.getD_none]
          omega
      | folder fid =>
          have hnamed : fid ≠ [] := fun hempty => share.root_named (hempty ▸ hitems.1)
          rw [addItems, Option.bind_eq_bind, Option.bind_eq_some_iff] at hadded
          obtain ⟨⟨size, requests'⟩, hfound, hrest⟩ := hadded
          rw [ih hitems.2 hrest, getFolderSize_eq h (mem_roots_of_mem hitems.1) hfound, Item.size,
            Item.fid?, if_pos hnamed, Option.map_some, Option.getD_some]
          omega

/-- The listing of the top is given up, or it comes to all entries. -/
theorem rootPages_eq (h : Whole share outcome) (hpage : 1 ≤ page)
    (hremaining : remaining = share.root.drop ((page - 1) * 100)) {totalSize : ℕ}
    {result : Option ℕ}
    (hresult : rootPages share outcome fuel remaining page totalSize requests = some result) :
    result = none ∨ result = some (totalSize + itemsTotal share remaining) := by
  induction hlength : remaining.length using Nat.strong_induction_on
    generalizing remaining page totalSize requests with
  | _ n ih =>
      rw [rootPages] at hresult
      cases hanswer : outcome ⟨none, page⟩ requests with
      | raised =>
          rw [hanswer] at hresult
          exact .inl (Option.some.inj hresult).symm
      | errorCode =>
          rw [hanswer] at hresult
          have hempty : remaining = [] := by
            by_contra hne
            exact h.top page requests (fun hnil => hne (hremaining.trans hnil)) hanswer
          rw [hempty]
          exact .inr (Option.some.inj hresult).symm
      | answered =>
          rw [hanswer] at hresult
          dsimp only at hresult
          by_cases hempty : remaining = []
          · rw [if_pos hempty] at hresult
            rw [hempty]
            exact .inr (Option.some.inj hresult).symm
          · rw [if_neg hempty, Option.bind_eq_some_iff] at hresult
            obtain ⟨⟨total, requests'⟩, hadded, hrest⟩ := hresult
            have htake : ∀ item ∈ remaining.take 100, item ∈ share.root := by
              intro item hitem
              rw [hremaining] at hitem
              exact List.mem_of_mem_drop (List.mem_of_mem_take hitem)
            have htotal := addItems_eq h htake hadded
            have hsplit : itemsTotal share remaining =
                itemsTotal share (remaining.take 100) + itemsTotal share (remaining.drop 100) := by
              rw [← itemsTotal_append, List.take_append_drop]
            dsimp only at hrest
            split_ifs at hrest with hlast
            · have hall : remaining.drop 100 = [] := by
                rw [List.drop_eq_nil_iff]
                have hroot : remaining.length ≤ share.root.length := by
                  rw [hremaining, List.length_drop]
                  exact Nat.sub_le _ _
                have hcounted := h.counted
                rw [List.length_take] at hlast
                omega
              rw [hall] at hsplit
              obtain rfl := Option.some.inj hrest
              right
              rw [hsplit, htotal]
              rfl
            · have hpositive := List.length_pos_of_ne_nil hempty
              rw [hsplit, ← Nat.add_assoc, ← htotal]
              refine ih _ ?_ (Nat.le_add_left 1 page) ?_ hrest rfl
              · rw [List.length_drop]
                omega
              · rw [hremaining, List.drop_drop]
                congr 1
                omega

end Listing

section Claims
variable {share : Share} {outcome : Request → ℕ → Outcome} {fuel : ℕ}

/-- Folders on top that have nothing in common add up to all folders. -/
theorem exactSize_eq (h : share.roots.Pairwise fun fid fid' =>
      ∀ v ∈ within share.children maxDepth [fid], v ∉ within share.children maxDepth [fid']) :
    share.exactSize = itemsTotal share share.root := by
  have hperm : (within share.children maxDepth share.roots).dedup.Perm
      (share.roots.flatMap fun fid => (within share.children maxDepth [fid]).dedup) := by
    rw [List.perm_ext_iff_of_nodup (List.nodup_dedup _)]
    · intro v
      rw [List.mem_dedup, mem_within_roots, List.mem_flatMap]
      simp only [List.mem_dedup]
    · rw [List.nodup_flatMap]
      refine ⟨fun _ _ => List.nodup_dedup _, h.imp ?_⟩
      intro fid fid' hdisjoint v hv hv'
      exact hdisjoint v (List.mem_dedup.mp hv) (List.mem_dedup.mp hv')
  rw [Share.exactSize, itemsTotal, (hperm.map share.filesOf).sum_eq, List.map_flatMap,
    List.flatMap, List.sum_flatten, List.map_map]
  rfl

/-- What the calls return and keep. -/
theorem fetchShareSize_sound {call : SizeCall} (h : Sound share call) {result : Option ℕ}
    (hresult : fetchShareSize share call.outcome fuel call.token = some result) :
    result = none ∨ result = some share.exactSize := by
  rw [fetchShareSize] at hresult
  split_ifs at hresult with htoken
  · rcases h with hrefused | hraised | hwhole
    · rw [hrefused] at htoken
      cases htoken
    · rw [rootPages, hraised] at hresult
      exact .inl (Option.some.inj hresult).symm
    · rw [exactSize_eq hwhole.apart, ← Nat.zero_add (itemsTotal share share.root)]
      exact rootPages_eq hwhole le_rfl List.drop_zero.symm hresult
  · exact .inl (Option.some.inj hresult).symm

theorem isSome_fetchShareSize (hfuel : share.bound ≤ fuel) (token : Bool) :
    (fetchShareSize share outcome fuel token).isSome = true := by
  rw [fetchShareSize]
  split_ifs
  · exact isSome_rootPages (fun _ h => h) hfuel
  · rfl

/-- What is kept is the size of a whole share. -/
def Exact (shares : Text → Share) (cache : QuarkSizeCache) : Prop :=
  ∀ shareKey size timestamp, cache.cache shareKey = some (size, timestamp) →
    size = (shares shareKey).exactSize

variable {shares : Text → Share} {cache cache' : QuarkSizeCache} {call : SizeCall}
  {calls : List SizeCall} {size : Option ℕ}

theorem Exact.get (h : Exact shares cache) (shareKey : Text) (now : ℚ) :
    Exact shares (cache.get shareKey now).2 ∧
      ((cache.get shareKey now).1 = none ∨
        (cache.get shareKey now).1 = some (shares shareKey).exactSize) := by
  rw [QuarkSizeCache.get]
  cases hentry : cache.cache shareKey with
  | none => exact ⟨h, .inl rfl⟩
  | some entry =>
      obtain ⟨size, timestamp⟩ := entry
      dsimp only
      split_ifs with hexpired
      · refine ⟨?_, .inl rfl⟩
        intro key size' timestamp' hkept
        dsimp only at hkept
        by_cases hkey : key = shareKey
        · rw [hkey, Function.update_self] at hkept
          cases hkept
        · rw [Function.update_of_ne hkey] at hkept
          exact h key size' timestamp' hkept
      · exact ⟨h, .inr (congrArg some (h shareKey size timestamp hentry))⟩

theorem Exact.set (h : Exact shares cache) (shareKey : Text) (now : ℚ) :
    Exact shares (cache.set shareKey (shares shareKey).exactSize now) := by
  intro key size timestamp hkept
  rw [QuarkSizeCache.set] at hkept
  dsimp only at hkept
  by_cases hkey : key = shareKey
  · rw [hkey, Function.update_self] at hkept
    obtain ⟨rfl, -⟩ := Prod.mk.inj (Option.some.inj hkept)
    rw [hkey]
  · rw [Function.update_of_ne hkey] at hkept
    exact h key size timestamp hkept

theorem isSome_getShareSize (cache : QuarkSizeCache)
    (hfuel : (shares call.shareKey).bound ≤ fuel) :
    (getShareSize shares fuel cache call).isSome = true := by
  rw [getShareSize]
  rcases cache.get call.shareKey call.askedAt with ⟨_ | size, cache'⟩
  · rw [Option.isSome_map]
    exact isSome_fetchShareSize hfuel call.token
  · rfl

theorem Exact.getShareSize (h : Exact shares cache) (hsound : Sound (shares call.shareKey) call)
    (hcall : getShareSize shares fuel cache call = some (size, cache')) :
    (size = none ∨ size = some (shares call.shareKey).exactSize) ∧ Exact shares cache' := by
  obtain ⟨hcache, hcached⟩ := h.get call.shareKey call.askedAt
  rw [Search.getShareSize] at hcall
  rcases hget : cache.get call.shareKey call.askedAt with ⟨_ | cached, asked⟩
  · rw [hget] at hcall hcache
    dsimp only at hcall hcache
    rw [Option.map_eq_some_iff] at hcall
    obtain ⟨result, hfetched, hkept⟩ := hcall
    rcases fetchShareSize_sound hsound hfetched with rfl | rfl
    · obtain ⟨rfl, rfl⟩ := Prod.mk.inj hkept
      exact ⟨.inl rfl, hcache⟩
    · obtain ⟨rfl, rfl⟩ := Prod.mk.inj hkept
      exact ⟨.inr rfl, hcache.set call.shareKey call.keptAt⟩
  · rw [hget] at hcall hcache hcached
    obtain ⟨rfl, rfl⟩ := Prod.mk.inj (Option.some.inj hcall)
    exact ⟨hcached, hcache⟩

/-- From a cache of exact sizes on. -/
theorem Exact.getShareSizes (cache : QuarkSizeCache)
    (hfuel : ∀ call ∈ calls, (shares call.shareKey).bound ≤ fuel) :
    ∃ sizes cache', getShareSizes shares fuel cache calls = some (sizes, cache') ∧
      (Exact shares cache → (∀ call ∈ calls, Sound (shares call.shareKey) call) →
        List.Forall₂ (fun call size => size = none ∨ size = some (shares call.shareKey).exactSize)
          calls sizes ∧ Exact shares cache') := by
  induction calls generalizing cache with
  | nil => exact ⟨[], cache, rfl, fun h _ => ⟨.nil, h⟩⟩
  | cons call calls ih =>
      rw [List.forall_mem_cons] at hfuel
      obtain ⟨⟨size, cache₁⟩, hcall⟩ :=
        Option.isSome_iff_exists.mp (isSome_getShareSize cache hfuel.1)
      obtain ⟨sizes, cache₂, hcalls, hrest⟩ := ih cache₁ hfuel.2
      refine ⟨size :: sizes, cache₂, ?_, ?_⟩
      · rw [Search.getShareSizes, hcall, Option.bind_eq_bind, Option.bind_some]
        dsimp only
        rw [hcalls]
        rfl
      · intro h hsound
        rw [List.forall_mem_cons] at hsound
        obtain ⟨hsize, hexact⟩ := h.getShareSize hsound.1 hcall
        obtain ⟨hsizes, hexact'⟩ := hrest hexact hsound.2
        exact ⟨.cons hsize hsizes, hexact'⟩

/-- A folder with a file and, in it, the way back to itself. -/
def loopedShare : Share where
  root := [.file 1, .folder "a".toList]
  totalCount := 2
  folders := [("a".toList, [.file 2, .folder "a".toList])]
  root_named := by decide

def answeredCall : SizeCall := ⟨"k".toList, 0, 0, true, fun _ _ => .answered⟩

theorem loopedShare_whole : Whole loopedShare fun _ _ => .answered where
  top := fun _ _ _ => Outcome.noConfusion
  below := fun _ _ _ _ => rfl
  counted := .inl (by decide)
  apart := List.pairwise_singleton _ _
  unshadowed := by
    intro fid _ way v _ _ _ c hc _
    have hloop : v = "a".toList := by
      by_contra hne
      have hlookup : loopedShare.folders.lookup v = none := by
        rw [loopedShare, List.lookup_eq_none_iff]
        simpa using hne
      rw [Share.children, Share.entries, hlookup] at hc
      cases hc
    rw [hloop] at hc ⊢
    rw [List.mem_singleton.mp hc]
    exact List.mem_append_right _ (List.mem_singleton_self _)

/-- The folders of the share cannot be listed. -/
def closedFolders (request : Request) (_ : ℕ) : Outcome :=
  if request.parent = none then .answered else .errorCode

theorem visitFolder_closed (fid : Text) :
    visitFolder loopedShare closedFolders (0, 2) fid = ([], 0, 3) := by
  rw [visitFolder, folderPages]
  rfl

end Claims

end SmartMedia.Search
