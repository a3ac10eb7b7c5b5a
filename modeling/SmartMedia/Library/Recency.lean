import Mathlib.Data.List.Dedup
import Mathlib.Data.List.Perm.Subperm
import Mathlib.Tactic.Common

/-!
# Recency

A list of distinct keys, the one used last in front. What stands ahead of a key has been used
after it; only a use of another key brings that one ahead of it.
-/
namespace Recency
variable {κ : Type} [DecidableEq κ] {k k' x : κ} {l l' used : List κ}

/-- The keys ahead of one of them. -/
def ahead (k : κ) (l : List κ) : List κ := l.takeWhile (· ≠ k)

@[simp] theorem ahead_cons_self : ahead k (k :: l) = [] := by
  rw [ahead, List.takeWhile_cons_of_neg (by simp)]

theorem ahead_cons_of_ne (h : k' ≠ k) : ahead k (k' :: l) = k' :: ahead k l := by
  rw [ahead, List.takeWhile_cons_of_pos (by simpa using h)]
  rfl

/-- Leaving out other keys brings none ahead. -/
theorem mem_ahead_of_sublist (hsub : l'.Sublist l) (hl : l.Nodup) (hk : k ∈ l')
    (hx : x ∈ ahead k l') : x ∈ ahead k l := by
  induction hsub with
  | slnil => cases hk
  | cons a hsub ih =>
      obtain ⟨ha, hl⟩ := List.nodup_cons.mp hl
      have hne : a ≠ k := by
        rintro rfl
        exact ha (hsub.mem hk)
      rw [ahead_cons_of_ne hne]
      exact List.mem_cons_of_mem a (ih hl hk hx)
  | cons_cons a hsub ih =>
      by_cases hne : a = k
      · subst hne
        rw [ahead_cons_self] at hx
        cases hx
      · rw [ahead_cons_of_ne hne, List.mem_cons] at hx ⊢
        rcases hx with rfl | hx
        · exact .inl rfl
        · exact .inr (ih hl.of_cons ((List.mem_cons.mp hk).resolve_left (Ne.symm hne)) hx)

/-- A key that comes to the front is all that comes ahead of another one. -/
theorem mem_ahead_of_front (hsub : l'.Sublist l) (hl : l.Nodup) (hne : k' ≠ k) (hk : k ∈ k' :: l')
    (hx : x ∈ ahead k (k' :: l')) : x = k' ∨ k ∈ l ∧ x ∈ ahead k l := by
  have hold := (List.mem_cons.mp hk).resolve_left (Ne.symm hne)
  rw [ahead_cons_of_ne hne, List.mem_cons] at hx
  exact hx.imp_right fun hx => ⟨hsub.mem hold, mem_ahead_of_sublist hsub hl hold hx⟩

/-- The last key has all others ahead. -/
theorem length_of_last (hl : l.Nodup) (hlast : l.getLast? = some k) :
    l.length = (ahead k l).length + 1 := by
  obtain ⟨front, rfl⟩ := List.getLast?_eq_some_iff.mp hlast
  have hfront : ahead k (front ++ [k]) = front := by
    rw [ahead, List.takeWhile_append_of_pos, List.takeWhile_cons_of_neg, List.append_nil]
    · simp
    · intro x hx
      rw [decide_eq_true_iff]
      rintro rfl
      exact (List.nodup_append.mp hl).2.2 x hx x List.mem_cons_self rfl
  rw [hfront, List.length_append, List.length_singleton]

/-- When the last key of a full list makes room for a new one, as many other keys have been used as
the list has room for. -/
theorem length_le_of_last (hl : l.Nodup) (hlast : l.getLast? = some k) (hk' : k' ∉ l)
    (hused : ∀ x ∈ ahead k l, x ∈ used) : l.length ≤ (k' :: used).dedup.length := by
  have hahead : (ahead k l).Sublist l := List.takeWhile_sublist _
  have hnodup : (k' :: ahead k l).Nodup :=
    List.nodup_cons.mpr ⟨fun h => hk' (hahead.mem h), hl.sublist hahead⟩
  have hsub : (k' :: ahead k l) ⊆ (k' :: used).dedup := by
    intro x hx
    rw [List.mem_dedup]
    rcases List.mem_cons.mp hx with rfl | hx
    · exact List.mem_cons_self
    · exact List.mem_cons_of_mem _ (hused x hx)
  rw [length_of_last hl hlast]
  exact (hnodup.subperm hsub).length_le

end Recency
