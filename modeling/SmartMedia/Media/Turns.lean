import SmartMedia.Media.Rollback

/-!
# One row's turn

What the turn of a row does to a path that is no related file. The related files are
moved among paths with a related extension, so only the two main paths of the row
matter. The loop over them ends normally exactly if none of its calls is refused, one
call for each related file that is there when the loop begins.
-/
namespace SmartMedia.Media
open StateProgram

/-- `VIDEO_EXTENSIONS` of `files.py`. -/
def videoExtensions : List Path :=
  [".mp4".toList, ".mkv".toList, ".avi".toList, ".mov".toList, ".wmv".toList, ".flv".toList,
    ".ts".toList, ".m2ts".toList, ".strm".toList]

/-- `is_video_path`, with `str.lower`. -/
def isVideoPath (lower : Path → Path) (p : Path) : Bool := lower (splitext p).2 ∈ videoExtensions

/-- No related extension ends the path. -/
def Unrelated (exts : List Path) (p : Path) : Prop := ∀ ext ∈ exts, ¬ ext <:+ p

/-- The rows are those of a scan: each video once, and no video is a related file. -/
structure Scanned (items : List RenameHistory) : Prop where
  once : (items.map (·.originalPath)).Nodup
  videos : ∀ item ∈ items, Unrelated relatedExtensions item.originalPath

/-- The extension of a path that ends in `.nfo` or the like is this ending or empty. -/
theorem splitext_related {ext p : Path} (he : ext ∈ relatedExtensions) (hp : ext <:+ p) :
    (splitext p).2 = ext ∨ (splitext p).2 = [] := by
  have hshape : ∀ ext ∈ relatedExtensions, ∃ tail : Path, ext = '.' :: tail ∧
      ∀ c ∈ tail.reverse, (c ≠ '/' && c ≠ '.') = true := by
    intro ext he
    refine ⟨ext.tail, ?_, ?_⟩
    · revert ext
      simp [relatedExtensions]
    · revert ext
      simp [relatedExtensions]
  obtain ⟨tail, rfl, htail⟩ := hshape ext he
  obtain ⟨base, rfl⟩ := hp
  have hreverse : (base ++ '.' :: tail).reverse = tail.reverse ++ '.' :: base.reverse := by
    simp
  have htake : (tail.reverse ++ '.' :: base.reverse).takeWhile (fun c => c ≠ '/' && c ≠ '.') =
      tail.reverse := by
    rw [List.takeWhile_append_of_pos htail, List.takeWhile_cons_of_neg (by decide),
      List.append_nil]
  rw [splitext, hreverse]
  simp only [htake, List.drop_left, List.reverse_reverse]
  split_ifs
  · exact .inl rfl
  · exact .inr rfl

/-- What `discover_media_files` accepts is no related file. -/
theorem unrelated_of_isVideoPath {lower : Path → Path} {p : Path} (hnil : lower [] = [])
    (hlower : ∀ ext ∈ relatedExtensions, lower ext = ext) (h : isVideoPath lower p = true) :
    Unrelated relatedExtensions p := by
  intro ext he hp
  have hvideo : lower (splitext p).2 ∈ videoExtensions := of_decide_eq_true h
  rcases splitext_related he hp with hext | hext
  · rw [hext, hlower ext he] at hvideo
    exact (by decide : ∀ ext ∈ relatedExtensions, ext ∉ videoExtensions) ext he hvideo
  · rw [hext, hnil] at hvideo
    exact absurd hvideo (by decide)

theorem Unrelated.smart {p : Path} (h : Unrelated relatedExtensions p) :
    Unrelated smartRelatedExtensions p := fun ext he =>
  h ext ((by decide : ∀ ext ∈ smartRelatedExtensions, ext ∈ relatedExtensions) ext he)

theorem Unrelated.perm {exts exts' : List Path} {p : Path} (h : Unrelated exts p)
    (hperm : exts'.Perm exts) : Unrelated exts' p := fun ext he => h ext (hperm.mem_iff.mp he)

theorem Unrelated.ne {exts : List Path} {p ext : Path} (h : Unrelated exts p) (he : ext ∈ exts)
    (b : Path) : b ++ ext ≠ p := fun hp => h ext he ⟨b, hp⟩

variable {β : Type}

/-- Nothing was taken from the path since `d`. -/
def Untaken (p : Path) (d d' : Disk β) : Prop :=
  ∃ L, d'.log = d.log ++ L ∧ ∀ m ∈ L, m.src ≠ p

/-- Nothing was taken from the path, and what was there is still there. -/
structure Keeps (p : Path) (d d' : Disk β) : Prop where
  untaken : Untaken p d d'
  file : ∀ x, d.files.lookup p = some x → d'.files.lookup p = some x

/-- Nothing was taken from the path or put there. -/
structure Spares (p : Path) (d d' : Disk β) : Prop where
  untaken : Untaken p d d'
  file : d'.files.lookup p = d.files.lookup p

section Relations
variable {p : Path} {d d₁ d' : Disk β}

theorem Untaken.of_same (hl : d'.log = d.log) : Untaken p d d' :=
  ⟨[], by rw [hl, List.append_nil], fun m hm => (by cases hm)⟩

theorem Untaken.trans (h : Untaken p d d₁) (h' : Untaken p d₁ d') : Untaken p d d' := by
  obtain ⟨L, hlog, hL⟩ := h
  obtain ⟨L', hlog', hL'⟩ := h'
  refine ⟨L ++ L', by rw [hlog', hlog, List.append_assoc], fun m hm => ?_⟩
  rcases List.mem_append.mp hm with hm | hm
  · exact hL m hm
  · exact hL' m hm

/-- What was not taken in the whole time was not taken in a part of it. -/
theorem Untaken.split (h : Untaken p d d') (h₁ : d.Extends d₁) (h₂ : d₁.Extends d') :
    Untaken p d d₁ ∧ Untaken p d₁ d' := by
  obtain ⟨L, hlog, hL⟩ := h
  obtain ⟨L₁, hlog₁, -⟩ := h₁
  obtain ⟨L₂, hlog₂, -⟩ := h₂
  rw [hlog₂, hlog₁, List.append_assoc] at hlog
  have hparts : L₁ ++ L₂ = L := List.append_cancel_left hlog
  rw [← hparts] at hL
  exact ⟨⟨L₁, hlog₁, fun m hm => hL m (List.mem_append_left _ hm)⟩,
    ⟨L₂, hlog₂, fun m hm => hL m (List.mem_append_right _ hm)⟩⟩

theorem Spares.of_same (hf : d'.files = d.files) (hl : d'.log = d.log) : Spares p d d' :=
  ⟨.of_same hl, by rw [hf]⟩

theorem Spares.refl (d : Disk β) : Spares p d d := .of_same rfl rfl

theorem Spares.trans (d d₁ d' : Disk β) (h : Spares p d d₁) (h' : Spares p d₁ d') :
    Spares p d d' := ⟨h.untaken.trans h'.untaken, h'.file.trans h.file⟩

theorem Spares.keeps (h : Spares p d d') : Keeps p d d' :=
  ⟨h.untaken, fun _ hx => h.file.trans hx⟩

theorem Keeps.refl (d : Disk β) : Keeps p d d := (Spares.refl d).keeps

theorem Keeps.trans (h : Keeps p d d₁) (h' : Keeps p d₁ d') : Keeps p d d' :=
  ⟨h.untaken.trans h'.untaken, fun x hx => h'.file x (h.file x hx)⟩

end Relations

section Moves
variable {env : Env} {g : MoveTag} {src dst b c p : Path} {exts : List Path}
variable {d : Disk β} {file : β} {item : ℕ}

/-- A move spares every path but its own two. -/
theorem relocate_spares (hs : src ≠ p) (hd : dst ≠ p) :
    Spares p d (relocate g src dst file d) := by
  refine ⟨?_, ?_⟩
  · by_cases hsd : src = dst
    · exact .of_same (by rw [relocate, if_pos hsd])
    · refine ⟨[⟨g, src, dst, file⟩], by rw [relocate, if_neg hsd], fun m hm => ?_⟩
      rw [List.mem_singleton.mp hm]
      exact hs
  · show Finmap.lookup p ((d.files.erase src).insert dst file) = _
    rw [Finmap.lookup_insert_of_ne _ hd.symm, Finmap.lookup_erase_ne hs.symm]

/-- The directory is there, or `os.makedirs` raised and moved nothing. -/
theorem makeDirs_ends (env : Env) (dir : Path) (d : Disk β) :
    (¬ (dir ≠ [] ∧ env.fails d.calls = none) ∧
        ∃ e d', makeDirs env dir d = .error e d' ∧ d'.files = d.files ∧ d'.log = d.log) ∨
      (dir ≠ [] ∧ env.fails d.calls = none) ∧
        makeDirs env dir d = .ok () { d with calls := d.calls + 1 } := by
  by_cases hdir : dir = []
  · refine .inl ⟨fun h => h.1 hdir, env.missing [], d, ?_, rfl, rfl⟩
    rw [makeDirs, if_pos hdir]
    rfl
  · cases hc : env.fails d.calls with
    | some e =>
        refine .inl ⟨fun h => Option.some_ne_none e h.2, e, { d with calls := d.calls + 1 }, ?_, rfl, rfl⟩
        rw [makeDirs, if_neg hdir, osCall_some hc]
    | none =>
        refine .inr ⟨⟨hdir, rfl⟩, ?_⟩
        rw [makeDirs, if_neg hdir, osCall_none hc]

/-- A move that is refused, or finds no file, raises and changes nothing. -/
theorem shutilMove_raises (g : MoveTag) (dst : Path)
    (h : ¬ (env.fails d.calls = none ∧ src ∈ d.files)) :
    ∃ e, shutilMove env g src dst d = .error e { d with calls := d.calls + 1 } := by
  cases hc : env.fails d.calls with
  | some e => exact ⟨e, bind_error (osCall_some hc)⟩
  | none =>
      have hsrc : d.files.lookup src = none := Finmap.lookup_eq_none.mpr fun hm => h ⟨hc, hm⟩
      exact ⟨env.missing src, shutilMove_absent g dst hc hsrc⟩

theorem shutilMove_spares (hs : src ≠ p) (hd : dst ≠ p) :
    Leads (Spares p) (shutilMove env g src dst) d := by
  by_cases h : env.fails d.calls = none ∧ src ∈ d.files
  · obtain ⟨file, hfile⟩ := Finmap.mem_iff.mp h.2
    rw [Leads, final_ok (shutilMove_moves g dst h.1 hfile)]
    exact .trans _ { d with calls := d.calls + 1 } _ (.of_same rfl rfl) (relocate_spares hs hd)
  · obtain ⟨e, he⟩ := shutilMove_raises g dst h
    rw [Leads, final_error he]
    exact .of_same rfl rfl

/-- The loop over the related files spares every path without a related extension. -/
theorem moveRelated_spares (hp : Unrelated exts p) (d : Disk β) :
    Leads (Spares p) (moveRelated env g b c exts) d := by
  induction exts generalizing d with
  | nil => exact .refl d
  | cons ext exts ih =>
      have hrest : Unrelated exts p := fun e he => hp e (List.mem_cons_of_mem _ he)
      refine leads_bind Spares.trans (.refl d) fun there d₁ _ => ?_
      cases there with
      | false => exact ih hrest d₁
      | true =>
          have hmove : Leads (Spares p) (shutilMove env g (b ++ ext) (c ++ ext)) d₁ :=
            shutilMove_spares (hp.ne List.mem_cons_self b) (hp.ne List.mem_cons_self c)
          exact leads_bind Spares.trans hmove fun _ d₂ _ => ih hrest d₂

/-- The related files of a base that are there. -/
def sidecars (exts : List Path) (b : Path) (fs : FileMap Path β) : List Path :=
  exts.filter fun ext => b ++ ext ∈ fs

/-- The loop ends normally exactly if none of its calls is refused. -/
theorem moveRelated_ok_iff (hext : IsExtensions exts) (b c : Path) (d : Disk β) :
    (∃ d', moveRelated env g b c exts d = .ok () d') ↔
      ∀ k < (sidecars exts b d.files).length, env.fails (d.calls + k) = none := by
  induction exts generalizing d with
  | nil => exact ⟨fun _ k hk => (by cases hk), fun _ => ⟨d, rfl⟩⟩
  | cons ext exts ih =>
      obtain ⟨hnew, hnodup⟩ := List.nodup_cons.mp hext.1
      have hext' : IsExtensions exts :=
        ⟨hnodup, fun e he => hext.2 e (List.mem_cons_of_mem _ he)⟩
      by_cases hthere : b ++ ext ∈ d.files
      · have hlist : sidecars (ext :: exts) b d.files = ext :: sidecars exts b d.files := by
          rw [sidecars, List.filter_cons, if_pos (by simpa using hthere), sidecars]
        obtain ⟨file, hfile⟩ := Finmap.mem_iff.mp hthere
        cases hc : env.fails d.calls with
        | some e =>
            have hrun : moveRelated env g b c (ext :: exts) d =
                .error e { d with calls := d.calls + 1 } := by
              rw [moveRelated, bind_ok (pathExists_true hthere)]
              exact bind_error (bind_error (osCall_some hc))
            rw [hrun, hlist]
            constructor
            · intro h
              obtain ⟨d', h⟩ := h
              cases h
            · intro h
              have hzero := h 0 (by simp)
              rw [Nat.add_zero, hc] at hzero
              cases hzero
        | none =>
            have hrun : moveRelated env g b c (ext :: exts) d = moveRelated env g b c exts
                (relocate g (b ++ ext) (c ++ ext) file { d with calls := d.calls + 1 }) := by
              rw [moveRelated, bind_ok (pathExists_true hthere)]
              exact bind_ok (shutilMove_moves _ _ hc hfile)
            -- whether one of the other related files is there does not change
            have hsame : sidecars exts b (relocate g (b ++ ext) (c ++ ext) file
                { d with calls := d.calls + 1 }).files = sidecars exts b d.files := by
              refine List.filter_congr fun e he => ?_
              have hne : e ≠ ext := fun h => hnew (h ▸ he)
              have hsrc : b ++ e ≠ b ++ ext := fun h => hne (List.append_cancel_left h)
              have hdst : b ++ e ≠ c ++ ext := by
                intro h
                by_cases hbc : b = c
                · rw [hbc] at h
                  exact hne (List.append_cancel_left h)
                · exact append_ext_ne hext.2 hbc (List.mem_cons_of_mem _ he)
                    List.mem_cons_self h
              rw [decide_eq_decide]
              show b ++ e ∈ Finmap.insert (c ++ ext) file (d.files.erase (b ++ ext)) ↔ _
              rw [Finmap.mem_insert, Finmap.mem_erase]
              exact ⟨fun h => (h.resolve_left hdst).2, fun h => .inr ⟨hsrc, h⟩⟩
            rw [hrun, ih hext', hsame, hlist]
            have hcalls : (relocate g (b ++ ext) (c ++ ext) file
                { d with calls := d.calls + 1 }).calls = d.calls + 1 := rfl
            rw [hcalls]
            constructor
            · intro h k hk
              rcases k with _ | k
              · exact hc
              · have hnext := h k (by simpa using hk)
                rwa [Nat.add_right_comm] at hnext
            · intro h k hk
              have hnext := h (k + 1) (by simpa using hk)
              rwa [← Nat.add_assoc, Nat.add_right_comm] at hnext
      · have hrun : moveRelated env g b c (ext :: exts) d = moveRelated env g b c exts d := by
          rw [moveRelated, bind_ok (pathExists_false hthere)]
          rfl
        have hlist : sidecars (ext :: exts) b d.files = sidecars exts b d.files := by
          rw [sidecars, List.filter_cons, if_neg (by simpa using hthere), sidecars]
        rw [hrun, hlist]
        exact ih hext' d

end Moves

end SmartMedia.Media
