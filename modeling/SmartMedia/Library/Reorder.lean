import Mathlib.Data.List.Flatten
import Mathlib.Data.List.Nodup
import Mathlib.Tactic.Common

/-!
# Reordering the steps of a run

Two lists of the same steps lead to the same state as soon as every two steps that the
lists have in opposite orders commute. Steps are partial: a step that is not possible
ends the run.
-/
namespace Reorder

variable {σ α : Type*} {act : σ → α → Option σ} {l l' : List α} {a b : α} {s : σ}

/-- The two steps can be exchanged in every state. -/
def Commutes (act : σ → α → Option σ) (a b : α) : Prop :=
  ∀ s, (act s a).bind (act · b) = (act s b).bind (act · a)

theorem Commutes.symm (h : Commutes act a b) : Commutes act b a := fun s => (h s).symm

theorem foldlM_cons (s : σ) (a : α) (l : List α) :
    (a :: l).foldlM act s = (act s a).bind fun s' => l.foldlM act s' := List.foldlM_cons

/-- A step moves to the front past the steps it commutes with. -/
theorem foldlM_move {pre post : List α} (h : ∀ a ∈ pre, Commutes act a b) (s : σ) :
    (pre ++ b :: post).foldlM act s = (b :: (pre ++ post)).foldlM act s := by
  induction pre generalizing s with
  | nil => rfl
  | cons a pre ih =>
      rw [List.forall_mem_cons] at h
      have hmove : ∀ s', (pre ++ b :: post).foldlM act s' =
          (act s' b).bind fun s'' => (pre ++ post).foldlM act s'' := by
        intro s'
        rw [ih h.2, foldlM_cons]
      rw [List.cons_append, foldlM_cons, foldlM_cons]
      simp only [hmove, List.cons_append, foldlM_cons]
      rw [← Option.bind_assoc, ← Option.bind_assoc, h.1 s]

/-- No two elements of a list without duplicates stand in both orders. -/
theorem not_both_orders (hl : l.Nodup) (h : [a, b].Sublist l) (h' : [b, a].Sublist l) : False := by
  induction l with
  | nil => cases h
  | cons c l ih =>
      rw [List.nodup_cons] at hl
      rcases List.sublist_cons_iff.mp h with hab | ⟨r, hr, hb⟩
      · rcases List.sublist_cons_iff.mp h' with hba | ⟨r, hr, -⟩
        · exact ih hl.2 hab hba
        · obtain ⟨rfl, -⟩ := List.cons.inj hr
          exact hl.1 (hab.subset (List.mem_cons_of_mem a List.mem_cons_self))
      · obtain ⟨rfl, rfl⟩ := List.cons.inj hr
        rcases List.sublist_cons_iff.mp h' with hba | ⟨r, hr, -⟩
        · exact hl.1 (hba.subset (List.mem_cons_of_mem b List.mem_cons_self))
        · obtain ⟨rfl, -⟩ := List.cons.inj hr
          exact hl.1 (hb.subset List.mem_cons_self)

/-- Two orders of the same steps lead to the same state if the pairs they have in opposite
orders commute. -/
theorem foldlM_eq (hperm : l.Perm l') (hl : l.Nodup)
    (h : ∀ a b, [a, b].Sublist l → [b, a].Sublist l' → Commutes act a b) (s : σ) :
    l.foldlM act s = l'.foldlM act s := by
  induction l' generalizing l s with
  | nil => rw [hperm.eq_nil]
  | cons b l' ih =>
      obtain ⟨pre, post, rfl⟩ := List.append_of_mem (hperm.mem_iff.mpr List.mem_cons_self)
      have hrest : (pre ++ post).Perm l' :=
        (List.perm_cons b).mp (List.perm_middle.symm.trans hperm)
      have hnodup := List.nodup_middle.mp hl
      rw [List.nodup_cons] at hnodup
      have hfront : ∀ a ∈ pre, Commutes act a b := by
        intro a ha
        refine h a b ?_ ?_
        · exact (List.singleton_sublist.mpr ha).append
            (List.singleton_sublist.mpr List.mem_cons_self)
        · have hmem : a ∈ l' := hrest.mem_iff.mp (List.mem_append_left _ ha)
          exact (List.singleton_sublist.mpr hmem).cons_cons b
      rw [foldlM_move hfront, foldlM_cons, foldlM_cons]
      refine congrArg _ (funext fun s' => ih hrest hnodup.2 (fun a c hac hca => ?_) s')
      refine h a c (hac.trans ?_) (hca.trans (List.sublist_cons_self b l'))
      exact (List.Sublist.refl pre).append (List.sublist_cons_self b post)

/-- Steps that stand for several steps each. -/
theorem foldlM_flatMap {β : Type*} {act' : σ → β → Option σ} {f : α → List β}
    (h : ∀ a ∈ l, ∀ s, act s a = (f a).foldlM act' s) (s : σ) :
    l.foldlM act s = (l.flatMap f).foldlM act' s := by
  induction l generalizing s with
  | nil => rfl
  | cons a l ih =>
      rw [List.forall_mem_cons] at h
      rw [foldlM_cons, List.flatMap_cons, List.foldlM_append, h.1]
      exact congrArg _ (funext fun s' => ih h.2 s')

/-- A pair in a list, through a function that keeps elements and the pair. -/
theorem pair_flatMap {f : List α → List α} {ls : List (List α)} (ha : ∀ l, a ∈ l → a ∈ f l)
    (hb : ∀ l, b ∈ l → b ∈ f l) (hf : ∀ l, [a, b].Sublist l → [a, b].Sublist (f l))
    (h : [a, b].Sublist ls.flatten) : [a, b].Sublist (ls.flatMap f) := by
  induction ls with
  | nil => cases h
  | cons l ls ih =>
      rw [List.flatten_cons, List.sublist_append_iff] at h
      obtain ⟨l₁, l₂, hsplit, h₁, h₂⟩ := h
      rw [List.flatMap_cons]
      have hin : ∀ {c}, c ∈ ls.flatten → (∀ l, c ∈ l → c ∈ f l) → c ∈ ls.flatMap f := by
        intro c hc hmem
        obtain ⟨l', hl', hc⟩ := List.mem_flatten.mp hc
        exact List.mem_flatMap.mpr ⟨l', hl', hmem l' hc⟩
      rcases l₁ with _ | ⟨c, _ | ⟨d, l₁⟩⟩
      · rw [List.nil_append] at hsplit
        exact (ih (hsplit ▸ h₂)).trans (List.sublist_append_right _ _)
      · obtain ⟨rfl, rfl⟩ := List.cons.inj hsplit
        exact (List.singleton_sublist.mpr (ha l (List.singleton_sublist.mp h₁))).append
          (List.singleton_sublist.mpr (hin (List.singleton_sublist.mp h₂) hb))
      · simp only [List.cons_append, List.cons.injEq] at hsplit
        obtain ⟨rfl, rfl, hnil⟩ := hsplit
        obtain ⟨rfl, -⟩ := List.append_eq_nil_iff.mp hnil.symm
        exact (hf l h₁).trans (List.sublist_append_left _ _)

/-- Of two different elements of a list one comes first. -/
theorem pair_sublist (ha : a ∈ l) (hb : b ∈ l) (hne : a ≠ b) :
    [a, b].Sublist l ∨ [b, a].Sublist l := by
  obtain ⟨l₁, l₂, rfl⟩ := List.append_of_mem ha
  rcases List.mem_append.mp hb with hb | hb
  · exact .inr ((List.singleton_sublist.mpr hb).append (List.singleton_sublist.mpr List.mem_cons_self))
  · have hb := (List.mem_cons.mp hb).resolve_left hne.symm
    exact .inl (((List.singleton_sublist.mpr hb).cons_cons a).trans (List.sublist_append_right _ _))

/-- Of two elements of a list in order, the one that may come first does. -/
theorem pair_of_pairwise {r : α → α → Prop} (hl : l.Pairwise r) (ha : a ∈ l) (hb : b ∈ l)
    (hne : a ≠ b) (hnot : ¬ r b a) : [a, b].Sublist l := by
  rcases pair_sublist ha hb hne with hab | hba
  · exact hab
  · exact absurd (List.pairwise_pair.mp (hl.sublist hba)) hnot

/-- Elements of the lists that two elements stand for. -/
theorem pair_flatMap_of_mem {β : Type*} {f : α → List β} {c d : β} (h : [a, b].Sublist l)
    (hc : c ∈ f a) (hd : d ∈ f b) : [c, d].Sublist (l.flatMap f) := by
  have hpair : [c, d].Sublist ([a, b].flatMap f) := by
    rw [List.flatMap_cons, List.flatMap_singleton]
    exact (List.singleton_sublist.mpr hc).append (List.singleton_sublist.mpr hd)
  exact hpair.trans (h.flatMap f)

end Reorder
