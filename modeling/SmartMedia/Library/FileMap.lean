import Mathlib.Data.Finmap
import SmartMedia.Library.PartialRun

/-!
# File maps and moves

A file map takes finitely many paths to what is stored there. Moving a path onto
another overwrites the destination. Two questions are answered for lists of moves:
which of them keep the multiset of contents, and which can be undone in any order.
-/
universe u v w

/-- What is stored at each path. -/
abbrev FileMap (π : Type u) (β : Type v) := Finmap (fun _ : π => β)

namespace FileMap
variable {π : Type u} {β : Type v} {κ : Type w} [DecidableEq π]
variable {fs fs' fs'' : FileMap π β} {p q : π} {x y : β}

/-- A performed move, with the content it moved and a label of its purpose. -/
structure Move (κ : Type w) (π : Type u) (β : Type v) where
  tag : κ
  src : π
  dst : π
  file : β
  deriving DecidableEq, Repr

/-- The map after moving `p` onto `q`; there is none when nothing is stored at `p`. -/
def move (fs : FileMap π β) (p q : π) : Option (FileMap π β) :=
  (fs.lookup p).map fun x => (fs.erase p).insert q x

/-- Everything stored, with multiplicities. -/
def contents (fs : FileMap π β) : Multiset β := fs.entries.map Sigma.snd

def step (fs : FileMap π β) (m : Move κ π β) : Option (FileMap π β) := fs.move m.src m.dst

/-- The move lands on another file. -/
def Overwrites (fs : FileMap π β) (m : Move κ π β) : Prop := m.dst ≠ m.src ∧ m.dst ∈ fs

theorem mem_iff_lookup : p ∈ fs ↔ ∃ x, fs.lookup p = some x := Finmap.mem_iff

theorem move_eq_some : fs.move p q = some fs' ↔
    ∃ x, fs.lookup p = some x ∧ fs' = (fs.erase p).insert q x := by
  rw [move, Option.map_eq_some_iff]
  exact exists_congr fun x => and_congr_right fun _ => eq_comm

theorem insert_erase_self : (fs.erase p).insert p x = fs.insert p x := by
  refine Finmap.ext_lookup fun r => ?_
  by_cases hr : r = p
  · rw [hr, Finmap.lookup_insert, Finmap.lookup_insert]
  · rw [Finmap.lookup_insert_of_ne _ hr, Finmap.lookup_insert_of_ne _ hr,
      Finmap.lookup_erase_ne hr]

/-- Putting back what was taken out changes nothing. -/
theorem insert_erase (h : fs.lookup p = some x) : (fs.erase p).insert p x = fs := by
  refine Finmap.ext_lookup fun r => ?_
  by_cases hr : r = p
  · rw [hr, Finmap.lookup_insert, h]
  · rw [Finmap.lookup_insert_of_ne _ hr, Finmap.lookup_erase_ne hr]

theorem contents_insert (h : p ∉ fs) : contents (fs.insert p x) = x ::ₘ contents fs := by
  rw [contents, Finmap.entries_insert_of_notMem h, Multiset.map_cons, contents]

theorem contents_erase (h : fs.lookup p = some x) : contents fs = x ::ₘ contents (fs.erase p) := by
  have hback := contents_insert (x := x) (Finmap.notMem_erase_self (a := p) (s := fs))
  rwa [insert_erase h] at hback

/-- A move that overwrites nothing keeps the contents. -/
theorem contents_move (h : fs.move p q = some fs') (hq : q = p ∨ q ∉ fs) :
    contents fs' = contents fs := by
  obtain ⟨x, hx, rfl⟩ := move_eq_some.mp h
  by_cases hqp : q = p
  · rw [hqp, insert_erase hx]
  · have hnot : q ∉ fs.erase p := by
      rw [Finmap.mem_erase]
      exact fun hm => hq.elim hqp fun hn => hn hm.2
    rw [contents_insert hnot, ← contents_erase hx]

/-- A move onto another file loses exactly what was stored there. -/
theorem contents_move_overwrite (h : fs.move p q = some fs') (hqp : q ≠ p)
    (hy : fs.lookup q = some y) : contents fs = y ::ₘ contents fs' := by
  obtain ⟨x, hx, rfl⟩ := move_eq_some.mp h
  have hy' : (fs.erase p).lookup q = some y := by rw [Finmap.lookup_erase_ne hqp, hy]
  rw [contents_erase hx, contents_erase hy', ← insert_erase_self,
    contents_insert Finmap.notMem_erase_self, Multiset.cons_swap]

theorem contents_step_le {m : Move κ π β} (h : step fs m = some fs') :
    contents fs' ≤ contents fs := by
  by_cases hm : Overwrites fs m
  · obtain ⟨y, hy⟩ := mem_iff_lookup.mp hm.2
    rw [contents_move_overwrite h hm.1 hy]
    exact Multiset.le_cons_self _ _
  · have hfree : m.dst = m.src ∨ m.dst ∉ fs := by
      by_contra hn
      rw [not_or, not_not] at hn
      exact hm hn
    rw [contents_move h hfree]

/-- Moves add no content. -/
theorem contents_exec_le {ms : List (Move κ π β)} (h : PartialRun.exec step fs ms = some fs') :
    contents fs' ≤ contents fs :=
  PartialRun.invariant_of_step (I := fun fs'' => contents fs'' ≤ contents fs)
    (fun _ _ _ hle hs => (contents_step_le hs).trans hle) le_rfl h

/-- After any moves, all contents are still there exactly if no move overwrote a file. -/
theorem contents_le_iff {ms : List (Move κ π β)} (h : PartialRun.exec step fs ms = some fs') :
    contents fs ≤ contents fs' ↔ PartialRun.Along step (fun fs m => ¬ Overwrites fs m) fs ms := by
  induction ms generalizing fs with
  | nil =>
      cases h
      exact ⟨fun _ => trivial, fun _ => le_rfl⟩
  | cons m ms ih =>
      obtain ⟨fs₁, h₁, hrest⟩ := PartialRun.exec_cons_eq_some.mp h
      have hrest_iff : PartialRun.Along step (fun fs m => ¬ Overwrites fs m) fs (m :: ms) ↔
          ¬ Overwrites fs m ∧ contents fs₁ ≤ contents fs' := by
        rw [PartialRun.along_cons, ih hrest]
        refine and_congr_right fun _ => ⟨fun h => h fs₁ h₁, fun h v hv => ?_⟩
        rw [h₁] at hv
        cases hv
        exact h
      rw [hrest_iff]
      by_cases hm : Overwrites fs m
      · obtain ⟨y, hy⟩ := mem_iff_lookup.mp hm.2
        have hlost := contents_move_overwrite h₁ hm.1 hy
        have hcard := Multiset.card_le_card (contents_exec_le hrest)
        refine ⟨fun hle => ?_, fun hn => absurd hm hn.1⟩
        have hle' := Multiset.card_le_card hle
        rw [hlost, Multiset.card_cons] at hle'
        omega
      · have hfree : m.dst = m.src ∨ m.dst ∉ fs := by
          by_contra hn
          rw [not_or, not_not] at hn
          exact hm hn
        rw [contents_move h₁ hfree]
        exact ⟨fun hle => ⟨hm, hle⟩, fun h => h.2⟩

/-- `fs'` is `fs` with every listed file moved and nothing else changed. -/
structure Relocates (ms : List (π × π)) (fs fs' : FileMap π β) : Prop where
  moved : ∀ m ∈ ms, fs'.lookup m.2 = fs.lookup m.1
  gone : ∀ m ∈ ms, fs'.lookup m.1 = none
  others : ∀ p, (∀ m ∈ ms, p ≠ m.1 ∧ p ≠ m.2) → fs'.lookup p = fs.lookup p

variable {ms ms' : List (π × π)}

theorem Relocates.nil : Relocates [] fs fs :=
  ⟨fun _ h => (by cases h), fun _ h => (by cases h), fun _ _ => rfl⟩

/-- A first move onto a free path, out of the way of the others. -/
theorem Relocates.cons {fs₁ : FileMap π β} (h : fs.move p q = some fs₁) (hpq : q ≠ p)
    (hdisj : ∀ m ∈ ms, p ≠ m.1 ∧ p ≠ m.2 ∧ q ≠ m.1 ∧ q ≠ m.2) (hr : Relocates ms fs₁ fs') :
    Relocates ((p, q) :: ms) fs fs' := by
  obtain ⟨x, hx, rfl⟩ := move_eq_some.mp h
  have hother : ∀ r, r ≠ p → r ≠ q → ((fs.erase p).insert q x).lookup r = fs.lookup r := by
    intro r hrp hrq
    rw [Finmap.lookup_insert_of_ne _ hrq, Finmap.lookup_erase_ne hrp]
  constructor
  · intro m hm
    rcases List.mem_cons.mp hm with rfl | hm
    · rw [hr.others q fun m hm => ⟨(hdisj m hm).2.2.1, (hdisj m hm).2.2.2⟩,
        Finmap.lookup_insert, hx]
    · rw [hr.moved m hm, hother _ (hdisj m hm).1.symm (hdisj m hm).2.2.1.symm]
  · intro m hm
    rcases List.mem_cons.mp hm with rfl | hm
    · rw [hr.others p fun m hm => ⟨(hdisj m hm).1, (hdisj m hm).2.1⟩,
        Finmap.lookup_insert_of_ne _ hpq.symm, Finmap.lookup_erase]
    · exact hr.gone m hm
  · intro r hno
    have hhead := hno (p, q) List.mem_cons_self
    rw [hr.others r fun m hm => hno m (List.mem_cons_of_mem _ hm), hother r hhead.1 hhead.2]

/-- Moves onto free paths are undone by the opposite moves. -/
theorem Relocates.undo (hr : Relocates ms fs fs') (hfree : ∀ m ∈ ms, m.2 ∉ fs) :
    Relocates (ms.map Prod.swap) fs' fs := by
  constructor
  · intro n hn
    obtain ⟨m, hm, rfl⟩ := List.mem_map.mp hn
    exact (hr.moved m hm).symm
  · intro n hn
    obtain ⟨m, hm, rfl⟩ := List.mem_map.mp hn
    exact Finmap.lookup_eq_none.mpr (hfree m hm)
  · intro r hno
    refine (hr.others r fun m hm => ?_).symm
    have hswap := hno m.swap (List.mem_map_of_mem hm)
    exact ⟨hswap.2, hswap.1⟩

/-- The order of the moves does not matter. -/
theorem Relocates.unique (h : Relocates ms fs fs') (h' : Relocates ms' fs fs'')
    (heq : ∀ m, m ∈ ms ↔ m ∈ ms') : fs' = fs'' := by
  refine Finmap.ext_lookup fun r => ?_
  by_cases hm : ∃ m ∈ ms, r = m.1 ∨ r = m.2
  · obtain ⟨m, hm, rfl | rfl⟩ := hm
    · rw [h.gone m hm, h'.gone m ((heq m).mp hm)]
    · rw [h.moved m hm, h'.moved m ((heq m).mp hm)]
  · have hno : ∀ m ∈ ms, r ≠ m.1 ∧ r ≠ m.2 := fun m hmem =>
      ⟨fun he => hm ⟨m, hmem, .inl he⟩, fun he => hm ⟨m, hmem, .inr he⟩⟩
    rw [h.others r hno, h'.others r fun m hmem => hno m ((heq m).mpr hmem)]

end FileMap
