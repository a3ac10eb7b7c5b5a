import SmartMedia.Media.Rename

/-!
# Undoing a move with its related files

Execute and rollback call the same routine with the two paths exchanged. When every
call succeeds and no file stands in the way at the sidecar names of the destination,
the routine moves exactly the main file and the related files that exist, and the
routine with exchanged paths moves exactly these back.
-/
namespace SmartMedia.Media
open StateProgram

/-- An operating system in which every call succeeds. -/
def Env.Smooth (env : Env) : Prop := ∀ n, env.fails n = none

/-- A set of related extensions, in some order: all of one length. -/
def IsExtensions (exts : List Path) : Prop :=
  exts.Nodup ∧ ∀ ext ∈ exts, ext.length = 4

/-- Source and destination have the same base, or no file stands at a sidecar name of
the destination and no sidecar name coincides with one of the two paths. A sidecar name
of the destination may be the destination itself when there is no such sidecar. -/
def Clear (exts : List Path) (src dst : Path) {β : Type} (fs : FileMap Path β) : Prop :=
  (splitext src).1 = (splitext dst).1 ∨ ∀ ext ∈ exts,
    (splitext dst).1 ++ ext ∉ fs ∧ (splitext src).1 ++ ext ≠ dst ∧
      ((splitext dst).1 ++ ext = dst →
        (splitext src).1 ++ ext = src ∨ (splitext src).1 ++ ext ∉ fs)

instance {β : Type} (exts : List Path) (src dst : Path) (fs : FileMap Path β) :
    Decidable (Clear exts src dst fs) :=
  inferInstanceAs (Decidable (_ ∨ ∀ ext ∈ exts, _))

/-- The related files that exist, with their old and new names. -/
def relatedPairs (exts : List Path) (b c : Path) {β : Type} (fs : FileMap Path β) :
    List (Path × Path) :=
  (exts.filter fun ext => b ++ ext ∈ fs).map fun ext => (b ++ ext, c ++ ext)

/-- Main and related files to be moved. -/
def itemPairs (exts : List Path) (src dst : Path) {β : Type} (fs : FileMap Path β) :
    List (Path × Path) :=
  (src, dst) :: if (splitext src).1 = (splitext dst).1 then []
    else relatedPairs exts (splitext src).1 (splitext dst).1 (fs.erase src)

variable {β : Type}

/-- From `d` to `d'` exactly the listed files were moved, for the row `item`. -/
structure Performs (item : ℕ) (ms : List (Path × Path)) (d d' : Disk β) : Prop where
  files : FileMap.Relocates ms d.files d'.files
  calls : d.calls ≤ d'.calls
  found : d'.found = d.found
  log : ∃ L, d'.log = d.log ++ L ∧
    (∀ m ∈ L, (m.src, m.dst) ∈ ms ∧ m.tag.item = item ∧ d.files.lookup m.src = some m.file) ∧
    ∀ p ∈ ms, ∃ m ∈ L, m.src = p.1 ∧ m.dst = p.2

section Moves
variable {env : Env} {g : MoveTag} {src dst b c : Path} {exts : List Path}
variable {d d' : Disk β} {file : β} {item : ℕ}

theorem isExtensions_related (h : exts.Perm relatedExtensions) : IsExtensions exts :=
  ⟨h.nodup_iff.mpr (by decide), fun ext he =>
    (by decide : ∀ ext ∈ relatedExtensions, ext.length = 4) ext (h.mem_iff.mp he)⟩

theorem isExtensions_smart (h : exts.Perm smartRelatedExtensions) : IsExtensions exts :=
  ⟨h.nodup_iff.mpr (by decide), fun ext he =>
    (by decide : ∀ ext ∈ smartRelatedExtensions, ext.length = 4) ext (h.mem_iff.mp he)⟩

theorem append_ext_ne (hlen : ∀ ext ∈ exts, ext.length = 4) (hbc : b ≠ c) {ext ext' : Path}
    (h : ext ∈ exts) (h' : ext' ∈ exts) : b ++ ext ≠ c ++ ext' := by
  intro he
  have hl : ext.length = ext'.length := by rw [hlen ext h, hlen ext' h']
  exact hbc (List.append_inj_left' he hl)

theorem shutilMove_ok (hs : env.Smooth) (h : d.files.lookup src = some file) :
    shutilMove env g src dst d =
      .ok () (relocate g src dst file { d with calls := d.calls + 1 }) :=
  shutilMove_moves g dst (hs d.calls) h

theorem shutilMove_missing (hs : env.Smooth) (h : d.files.lookup src = none) :
    shutilMove env g src dst d = .error (env.missing src) { d with calls := d.calls + 1 } :=
  shutilMove_absent g dst (hs d.calls) h

/-- One file moved onto a free path, in front of moves that keep out of its way. -/
theorem Performs.cons {d₁ : Disk β} {ms : List (Path × Path)} (hsrc : d.files.lookup src = some file)
    (hdst : dst ∉ d.files)
    (hd₁ : d₁ = relocate ⟨item, g.kind⟩ src dst file { d with calls := d.calls + 1 })
    (hdisj : ∀ m ∈ ms, src ≠ m.1 ∧ src ≠ m.2 ∧ dst ≠ m.1 ∧ dst ≠ m.2)
    (h : Performs item ms d₁ d') : Performs item ((src, dst) :: ms) d d' := by
  have hne : dst ≠ src := by
    intro he
    rw [he] at hdst
    exact hdst (Finmap.mem_of_lookup_eq_some hsrc)
  obtain ⟨L, hlog, hL, hcover⟩ := h.log
  have hmove : FileMap.move d.files src dst = some d₁.files :=
    FileMap.move_eq_some.mpr ⟨file, hsrc, by rw [hd₁]; rfl⟩
  have hother : ∀ m ∈ ms, d₁.files.lookup m.1 = d.files.lookup m.1 := by
    intro m hm
    obtain ⟨h₁, -, h₃, -⟩ := hdisj m hm
    rw [hd₁]
    show Finmap.lookup m.1 ((d.files.erase src).insert dst file) = _
    rw [Finmap.lookup_insert_of_ne _ h₃.symm, Finmap.lookup_erase_ne h₁.symm]
  refine ⟨.cons hmove hne hdisj h.files, ?_, ?_, ⟨⟨⟨item, g.kind⟩, src, dst, file⟩ :: L, ?_, ?_, ?_⟩⟩
  · have hcalls : d₁.calls = d.calls + 1 := by rw [hd₁]; rfl
    have hrest := h.calls
    omega
  · rw [h.found, hd₁]
    rfl
  · rw [hlog, hd₁, relocate, if_neg hne.symm]
    simp
  · intro m hm
    rcases List.mem_cons.mp hm with rfl | hm
    · exact ⟨List.mem_cons_self, rfl, hsrc⟩
    · obtain ⟨hmem, hitem, hfile⟩ := hL m hm
      refine ⟨List.mem_cons_of_mem _ hmem, hitem, ?_⟩
      rw [← hfile]
      exact (hother _ hmem).symm
  · intro p hp
    rcases List.mem_cons.mp hp with rfl | hp
    · exact ⟨_, List.mem_cons_self, rfl, rfl⟩
    · obtain ⟨m, hm, hmp⟩ := hcover p hp
      exact ⟨m, List.mem_cons_of_mem _ hm, hmp⟩

theorem mem_relatedPairs {fs : FileMap Path β} {p : Path × Path} :
    p ∈ relatedPairs exts b c fs ↔ ∃ ext ∈ exts, b ++ ext ∈ fs ∧ p = (b ++ ext, c ++ ext) := by
  simp only [relatedPairs, List.mem_map, List.mem_filter, decide_eq_true_eq]
  constructor
  · rintro ⟨ext, ⟨he, hm⟩, rfl⟩
    exact ⟨ext, he, hm, rfl⟩
  · rintro ⟨ext, he, hm, rfl⟩
    exact ⟨ext, ⟨he, hm⟩, rfl⟩

/-- With equal bases the loop moves files onto themselves only. -/
theorem moveRelated_same (hs : env.Smooth) (b : Path) (exts : List Path) (d : Disk β) :
    ∃ d', moveRelated env g b b exts d = .ok () d' ∧ Performs g.item [] d d' := by
  induction exts generalizing d with
  | nil => exact ⟨d, rfl, .nil, le_rfl, rfl, [], by simp, by simp, by simp⟩
  | cons ext exts ih =>
      cases hl : d.files.lookup (b ++ ext) with
      | none =>
          obtain ⟨d', hrun, hperf⟩ := ih d
          refine ⟨d', ?_, hperf⟩
          rw [moveRelated, bind_ok (show pathExists _ d = .ok false d by rw [pathExists, hl]; rfl)]
          exact hrun
      | some file =>
          obtain ⟨d', hrun, hperf⟩ :=
            ih (relocate g (b ++ ext) (b ++ ext) file { d with calls := d.calls + 1 })
          have hsame : (relocate g (b ++ ext) (b ++ ext) file
              { d with calls := d.calls + 1 }).files = d.files := FileMap.insert_erase hl
          refine ⟨d', ?_, ?_⟩
          · rw [moveRelated, bind_ok (show pathExists _ d = .ok true d by rw [pathExists, hl]; rfl)]
            exact (bind_ok (shutilMove_ok hs hl)).trans hrun
          · obtain ⟨hfiles, hcalls, hfound, L, hlog, hL⟩ := hperf
            rw [hsame] at hfiles hL
            rw [relocate, if_pos rfl] at hlog
            exact ⟨hfiles, (Nat.le_succ _).trans hcalls, hfound, L, hlog, hL⟩

/-- The loop moves every existing related file onto its free new name. -/
theorem moveRelated_performs (hs : env.Smooth) (hbc : b ≠ c) (hext : IsExtensions exts)
    (hfree : ∀ ext ∈ exts, b ++ ext ∈ d.files → c ++ ext ∉ d.files) :
    ∃ d', moveRelated env g b c exts d = .ok () d' ∧
      Performs g.item (relatedPairs exts b c d.files) d d' := by
  induction exts generalizing d with
  | nil => exact ⟨d, rfl, .nil, le_rfl, rfl, [], by simp, by simp [relatedPairs], by simp [relatedPairs]⟩
  | cons ext exts ih =>
      obtain ⟨hnodup, hlen⟩ := hext
      obtain ⟨hnew, hnodup⟩ := List.nodup_cons.mp hnodup
      have hext' : IsExtensions exts :=
        ⟨hnodup, fun e he => hlen e (List.mem_cons_of_mem _ he)⟩
      cases hl : d.files.lookup (b ++ ext) with
      | none =>
          have hnone : b ++ ext ∉ d.files := Finmap.lookup_eq_none.mp hl
          obtain ⟨d', hrun, hperf⟩ :=
            ih hext' fun e he => hfree e (List.mem_cons_of_mem _ he)
          refine ⟨d', ?_, ?_⟩
          · rw [moveRelated,
              bind_ok (show pathExists _ d = .ok false d by rw [pathExists, hl]; rfl)]
            exact hrun
          · rw [relatedPairs, List.filter_cons, if_neg (by simpa using hnone)]
            exact hperf
      | some file =>
          have hhere : b ++ ext ∈ d.files := Finmap.mem_of_lookup_eq_some hl
          have hfree_ext := hfree ext List.mem_cons_self hhere
          -- the move of this file touches no name of the others
          have hkeep : ∀ p, p ≠ b ++ ext → p ≠ c ++ ext →
              ((relocate g (b ++ ext) (c ++ ext) file
                { d with calls := d.calls + 1 }).files).lookup p = d.files.lookup p := by
            intro p hpb hpc
            show Finmap.lookup p ((d.files.erase (b ++ ext)).insert (c ++ ext) file) = _
            rw [Finmap.lookup_insert_of_ne _ hpc, Finmap.lookup_erase_ne hpb]
          have hdiff : ∀ e ∈ exts, b ++ e ≠ b ++ ext ∧ b ++ e ≠ c ++ ext ∧
              c ++ e ≠ b ++ ext ∧ c ++ e ≠ c ++ ext := by
            intro e he
            have he' := List.mem_cons_of_mem ext he
            have hne : e ≠ ext := fun h => hnew (h ▸ he)
            exact ⟨fun h => hne (List.append_cancel_left h),
              append_ext_ne hlen hbc he' List.mem_cons_self,
              append_ext_ne hlen hbc.symm he' List.mem_cons_self,
              fun h => hne (List.append_cancel_left h)⟩
          have hmem : ∀ e ∈ exts, ∀ x ∈ [b, c], x ++ e ∈ (relocate g (b ++ ext) (c ++ ext) file
              { d with calls := d.calls + 1 }).files ↔ x ++ e ∈ d.files := by
            intro e he x hx
            obtain ⟨h₁, h₂, h₃, h₄⟩ := hdiff e he
            rw [Finmap.mem_iff, Finmap.mem_iff]
            rcases List.mem_cons.mp hx with rfl | hx
            · rw [hkeep _ h₁ h₂]
            · rw [List.mem_singleton.mp hx, hkeep _ h₃ h₄]
          obtain ⟨d', hrun, hperf⟩ := ih (d := relocate g (b ++ ext) (c ++ ext) file
            { d with calls := d.calls + 1 }) hext' (by
              intro e he hb
              rw [hmem e he b (by simp)] at hb
              rw [hmem e he c (by simp)]
              exact hfree e (List.mem_cons_of_mem _ he) hb)
          have hpairs : relatedPairs exts b c (relocate g (b ++ ext) (c ++ ext) file
              { d with calls := d.calls + 1 }).files = relatedPairs exts b c d.files := by
            have hfilter : ∀ e ∈ exts, decide (b ++ e ∈ (relocate g (b ++ ext) (c ++ ext) file
                { d with calls := d.calls + 1 }).files) = decide (b ++ e ∈ d.files) := by
              intro e he
              rw [decide_eq_decide]
              exact hmem e he b (by simp)
            rw [relatedPairs, List.filter_congr hfilter, relatedPairs]
          refine ⟨d', ?_, ?_⟩
          · rw [moveRelated,
              bind_ok (show pathExists _ d = .ok true d by rw [pathExists, hl]; rfl)]
            exact (bind_ok (shutilMove_ok hs hl)).trans hrun
          · rw [relatedPairs, List.filter_cons, if_pos (by simpa using hhere), List.map_cons]
            rw [hpairs] at hperf
            refine Performs.cons (g := g) hl hfree_ext rfl (fun m hm => ?_) hperf
            obtain ⟨e, he, -, rfl⟩ := mem_relatedPairs.mp hm
            obtain ⟨h₁, h₂, h₃, h₄⟩ := hdiff e he
            exact ⟨h₁.symm, h₃.symm, h₂.symm, h₄.symm⟩

/-- The whole routine, from an existing file to a free path out of the way of others. -/
theorem moveWithRelated_performs (item : ℕ) (hs : env.Smooth) (hext : IsExtensions exts)
    (hsrc : d.files.lookup src = some file) (hdst : dst ∉ d.files)
    (hclear : Clear exts src dst d.files) :
    ∃ d', moveWithRelated env exts item src dst d = .ok () d' ∧
      Performs item (itemPairs exts src dst d.files) d d' := by
  let d₁ : Disk β := relocate ⟨item, .main⟩ src dst file { d with calls := d.calls + 1 }
  have hrun₁ : shutilMove env ⟨item, .main⟩ src dst d = .ok () d₁ := shutilMove_ok hs hsrc
  by_cases hb : (splitext src).1 = (splitext dst).1
  · obtain ⟨d', hrun, hperf⟩ :=
      moveRelated_same (g := ⟨item, .related⟩) hs (splitext dst).1 exts d₁
    refine ⟨d', ?_, ?_⟩
    · rw [moveWithRelated, bind_ok hrun₁, hb, hrun]
    · rw [itemPairs, if_pos hb]
      exact Performs.cons (g := ⟨item, .main⟩) hsrc hdst rfl (fun m hm => by cases hm) hperf
  · have hnames := hclear.resolve_left hb
    have hsrc_mem : src ∈ d.files := Finmap.mem_of_lookup_eq_some hsrc
    have hmem : ∀ p, p ≠ dst → (p ∈ d₁.files ↔ p ∈ d.files.erase src) := by
      intro p hp
      show p ∈ Finmap.insert dst file (d.files.erase src) ↔ _
      rw [Finmap.mem_insert]
      exact ⟨fun h => h.resolve_left hp, .inr⟩
    have hfree : ∀ ext ∈ exts, (splitext src).1 ++ ext ∈ d₁.files →
        (splitext dst).1 ++ ext ∉ d₁.files := by
      intro ext he hold hnew
      obtain ⟨hnot, hne, hself⟩ := hnames ext he
      rw [hmem _ hne, Finmap.mem_erase] at hold
      have hcd : (splitext dst).1 ++ ext ≠ dst := fun h => (hself h).elim hold.1 fun h => h hold.2
      rw [hmem _ hcd, Finmap.mem_erase] at hnew
      exact hnot hnew.2
    obtain ⟨d', hrun, hperf⟩ :=
      moveRelated_performs (g := ⟨item, .related⟩) (d := d₁) hs hb hext hfree
    have hpairs : relatedPairs exts (splitext src).1 (splitext dst).1 d₁.files =
        relatedPairs exts (splitext src).1 (splitext dst).1 (d.files.erase src) := by
      have hfilter : ∀ ext ∈ exts, decide ((splitext src).1 ++ ext ∈ d₁.files) =
          decide ((splitext src).1 ++ ext ∈ d.files.erase src) := by
        intro ext he
        rw [decide_eq_decide]
        exact hmem _ (hnames ext he).2.1
      rw [relatedPairs, List.filter_congr hfilter, relatedPairs]
    refine ⟨d', ?_, ?_⟩
    · rw [moveWithRelated, bind_ok hrun₁, hrun]
    · rw [hpairs] at hperf
      rw [itemPairs, if_neg hb]
      refine Performs.cons (g := ⟨item, .main⟩) hsrc hdst rfl (fun m hm => ?_) hperf
      obtain ⟨ext, he, hin, rfl⟩ := mem_relatedPairs.mp hm
      obtain ⟨hnot, hne, hself⟩ := hnames ext he
      rw [Finmap.mem_erase] at hin
      have hback : src ≠ (splitext dst).1 ++ ext := fun h => hnot (h ▸ hsrc_mem)
      refine ⟨hin.1.symm, hback, hne.symm, fun h => ?_⟩
      exact (hself h.symm).elim hin.1 fun h => h hin.2

end Moves

section Back
variable {src dst : Path} {exts exts' : List Path} {fs fs' : FileMap Path β}

theorem mem_itemPairs {p : Path × Path} : p ∈ itemPairs exts src dst fs ↔ p = (src, dst) ∨
    (splitext src).1 ≠ (splitext dst).1 ∧ ∃ ext ∈ exts,
      ((splitext src).1 ++ ext ≠ src ∧ (splitext src).1 ++ ext ∈ fs) ∧
        p = ((splitext src).1 ++ ext, (splitext dst).1 ++ ext) := by
  rw [itemPairs, List.mem_cons]
  refine or_congr_right ?_
  split_ifs with hb
  · simp [hb]
  · rw [mem_relatedPairs]
    simp only [Finmap.mem_erase, ne_eq, hb, not_false_eq_true, true_and]

/-- The destinations of the moves are free. -/
theorem itemPairs_free (hdst : dst ∉ fs) (hclear : Clear exts src dst fs) :
    ∀ m ∈ itemPairs exts src dst fs, m.2 ∉ fs := by
  intro m hm
  rcases mem_itemPairs.mp hm with rfl | ⟨hb, ext, he, -, rfl⟩
  · exact hdst
  · exact (hclear.resolve_left hb ext he).1

/-- A sidecar name of the destination is taken afterwards exactly if its file was moved
there, or if it is the destination. -/
theorem mem_after_move (hext : IsExtensions exts) (hsrc : src ∈ fs)
    (hclear : Clear exts src dst fs) (hr : FileMap.Relocates (itemPairs exts src dst fs) fs fs')
    (hb : (splitext src).1 ≠ (splitext dst).1) {ext : Path} (he : ext ∈ exts)
    (hne : (splitext dst).1 ++ ext ≠ dst) : (splitext dst).1 ++ ext ∈ fs' ↔
      (splitext src).1 ++ ext ≠ src ∧ (splitext src).1 ++ ext ∈ fs := by
  have hnot := (hclear.resolve_left hb ext he).1
  by_cases hmoved : (splitext src).1 ++ ext ≠ src ∧ (splitext src).1 ++ ext ∈ fs
  · have hpair : ((splitext src).1 ++ ext, (splitext dst).1 ++ ext) ∈ itemPairs exts src dst fs :=
      mem_itemPairs.mpr (.inr ⟨hb, ext, he, hmoved, rfl⟩)
    refine ⟨fun _ => hmoved, fun _ => ?_⟩
    obtain ⟨x, hx⟩ := Finmap.mem_iff.mp hmoved.2
    exact Finmap.mem_iff.mpr ⟨x, (hr.moved _ hpair).trans hx⟩
  · refine ⟨fun hin => ?_, fun h => absurd h hmoved⟩
    have huntouched : fs'.lookup ((splitext dst).1 ++ ext) =
        fs.lookup ((splitext dst).1 ++ ext) := by
      refine hr.others _ fun m hm => ?_
      rcases mem_itemPairs.mp hm with rfl | ⟨-, ext', he', hin', rfl⟩
      · exact ⟨fun h => hnot (h ▸ hsrc), hne⟩
      · refine ⟨append_ext_ne hext.2 (Ne.symm hb) he he', fun h => ?_⟩
        rw [List.append_cancel_left h] at hmoved
        exact hmoved hin'
    obtain ⟨x, hx⟩ := Finmap.mem_iff.mp hin
    exact absurd (Finmap.mem_iff.mpr ⟨x, huntouched.symm.trans hx⟩) hnot

/-- The old sidecar names are free afterwards. -/
theorem old_notMem_after (hext : IsExtensions exts) (hclear : Clear exts src dst fs)
    (hr : FileMap.Relocates (itemPairs exts src dst fs) fs fs')
    (hb : (splitext src).1 ≠ (splitext dst).1) {ext : Path} (he : ext ∈ exts) :
    (splitext src).1 ++ ext ∉ fs' := by
  have hne := (hclear.resolve_left hb ext he).2.1
  rw [← Finmap.lookup_eq_none]
  by_cases hself : (splitext src).1 ++ ext = src
  · rw [hself]
    exact hr.gone (src, dst) (mem_itemPairs.mpr (.inl rfl))
  · by_cases hin : (splitext src).1 ++ ext ∈ fs
    · exact hr.gone ((splitext src).1 ++ ext, (splitext dst).1 ++ ext)
        (mem_itemPairs.mpr (.inr ⟨hb, ext, he, ⟨hself, hin⟩, rfl⟩))
    · have huntouched := hr.others ((splitext src).1 ++ ext) fun m hm => by
        rcases mem_itemPairs.mp hm with rfl | ⟨-, ext', he', hin', rfl⟩
        · exact ⟨hself, hne⟩
        · exact ⟨fun h => hin (h ▸ hin'.2), append_ext_ne hext.2 hb he he'⟩
      rw [huntouched]
      exact Finmap.lookup_eq_none.mpr hin

/-- After the moves the way back is clear. -/
theorem clear_back (hext : IsExtensions exts) (hsrc : src ∈ fs) (hperm : exts'.Perm exts)
    (hclear : Clear exts src dst fs) (hr : FileMap.Relocates (itemPairs exts src dst fs) fs fs') :
    Clear exts' dst src fs' := by
  by_cases hb : (splitext src).1 = (splitext dst).1
  · exact .inl hb.symm
  · refine .inr fun ext he' => ?_
    have he := hperm.mem_iff.mp he'
    have hnot := (hclear.resolve_left hb ext he).1
    refine ⟨old_notMem_after hext hclear hr hb he, fun h => hnot (h ▸ hsrc), fun hself => ?_⟩
    by_cases hdst : (splitext dst).1 ++ ext = dst
    · exact .inl hdst
    · refine .inr fun hin => ?_
      exact ((mem_after_move hext hsrc hclear hr hb he hdst).mp hin).1 hself

/-- The way back moves exactly what was moved. -/
theorem itemPairs_back (hext : IsExtensions exts) (hsrc : src ∈ fs) (hperm : exts'.Perm exts)
    (hclear : Clear exts src dst fs) (hr : FileMap.Relocates (itemPairs exts src dst fs) fs fs')
    (p : Path × Path) :
    p ∈ itemPairs exts' dst src fs' ↔ p ∈ (itemPairs exts src dst fs).map Prod.swap := by
  have hnew : (splitext src).1 ≠ (splitext dst).1 → ∀ ext ∈ exts,
      ((splitext dst).1 ++ ext ≠ dst ∧ (splitext dst).1 ++ ext ∈ fs' ↔
        (splitext src).1 ++ ext ≠ src ∧ (splitext src).1 ++ ext ∈ fs) := by
    intro hb ext he
    constructor
    · intro h
      exact (mem_after_move hext hsrc hclear hr hb he h.1).mp h.2
    · intro h
      have hne : (splitext dst).1 ++ ext ≠ dst := fun hd =>
        ((hclear.resolve_left hb ext he).2.2 hd).elim h.1 fun hn => hn h.2
      exact ⟨hne, (mem_after_move hext hsrc hclear hr hb he hne).mpr h⟩
  rw [mem_itemPairs, List.mem_map]
  constructor
  · intro h
    rcases h with rfl | ⟨hb, ext, he', hin, rfl⟩
    · exact ⟨(src, dst), mem_itemPairs.mpr (.inl rfl), rfl⟩
    · have he := hperm.mem_iff.mp he'
      exact ⟨((splitext src).1 ++ ext, (splitext dst).1 ++ ext),
        mem_itemPairs.mpr (.inr ⟨hb.symm, ext, he, (hnew hb.symm ext he).mp hin, rfl⟩), rfl⟩
  · intro h
    obtain ⟨q, hq, rfl⟩ := h
    rcases mem_itemPairs.mp hq with rfl | ⟨hb, ext, he, hin, rfl⟩
    · exact .inl rfl
    · exact .inr ⟨hb.symm, ext, hperm.mem_iff.mpr he, (hnew hb ext he).mpr hin, rfl⟩

end Back

/-- The move takes the same file of the same row the other way. -/
def Opposite (m m' : FileMap.Move MoveTag Path β) : Prop :=
  m.tag.item = m'.tag.item ∧ m.src = m'.dst ∧ m.dst = m'.src ∧ m.file = m'.file

/-- The routine with exchanged paths restores the files, by moves opposite to those
that were made. -/
theorem moveWithRelated_back {env : Env} {item : ℕ} {src dst : Path} {exts exts' : List Path}
    {file : β} {d d' : Disk β} (d₂ : Disk β) (hs : env.Smooth) (hext : IsExtensions exts)
    (hperm : exts'.Perm exts) (hsrc : d.files.lookup src = some file) (hdst : dst ∉ d.files)
    (hclear : Clear exts src dst d.files)
    (hp : Performs item (itemPairs exts src dst d.files) d d') (hfiles : d₂.files = d'.files) :
    ∃ d₃ L R, moveWithRelated env exts' item dst src d₂ = .ok () d₃ ∧ d₃.files = d.files ∧
      d'.log = d.log ++ L ∧ d₃.log = d₂.log ++ R ∧ ∀ m ∈ R, ∃ m' ∈ L, Opposite m m' := by
  have hr := hp.files
  have hmem : src ∈ d.files := Finmap.mem_of_lookup_eq_some hsrc
  have hmain : (src, dst) ∈ itemPairs exts src dst d.files := mem_itemPairs.mpr (.inl rfl)
  have hthere : d₂.files.lookup dst = some file := by
    rw [hfiles, hr.moved _ hmain]
    exact hsrc
  have hgone : src ∉ d₂.files := by
    rw [hfiles, ← Finmap.lookup_eq_none]
    exact hr.gone _ hmain
  have hext' : IsExtensions exts' :=
    ⟨hperm.nodup_iff.mpr hext.1, fun ext he => hext.2 ext (hperm.mem_iff.mp he)⟩
  have hback : Clear exts' dst src d₂.files := by
    rw [hfiles]
    exact clear_back hext hmem hperm hclear hr
  obtain ⟨d₃, hrun, hp₃⟩ := moveWithRelated_performs item hs hext' hthere hgone hback
  have hswap : ∀ p, p ∈ itemPairs exts' dst src d₂.files ↔
      p ∈ (itemPairs exts src dst d.files).map Prod.swap := by
    rw [hfiles]
    exact itemPairs_back hext hmem hperm hclear hr
  have hundo : FileMap.Relocates ((itemPairs exts src dst d.files).map Prod.swap) d₂.files
      d.files := by
    rw [hfiles]
    exact hr.undo (itemPairs_free hdst hclear)
  obtain ⟨L, hlog, hL, hcover⟩ := hp.log
  obtain ⟨R, hlogR, hR, -⟩ := hp₃.log
  refine ⟨d₃, L, R, hrun, hp₃.files.unique hundo hswap, hlog, hlogR, fun m hm => ?_⟩
  obtain ⟨hpair, hitem, hfile⟩ := hR m hm
  obtain ⟨q, hq, he⟩ := List.mem_map.mp ((hswap _).mp hpair)
  obtain ⟨m', hm', hsrc', hdst'⟩ := hcover q hq
  obtain ⟨-, hitem', hfile'⟩ := hL m' hm'
  have hms : m.src = q.2 := (congrArg Prod.fst he).symm
  have hmd : m.dst = q.1 := (congrArg Prod.snd he).symm
  refine ⟨m', hm', by rw [hitem, hitem'], by rw [hms, hdst'], by rw [hmd, hsrc'], ?_⟩
  -- the file found at the new name is the one taken from the old name
  rw [hfiles, hms, hr.moved q hq, ← hsrc', hfile'] at hfile
  exact (Option.some.inj hfile).symm

end SmartMedia.Media
