import Mathlib.Tactic.Common

/-!
# Counting while one element changes

Systems of many parties are bounded through the number of parties in some stage. A step
moves one party, so that the count changes by that party alone.
-/
namespace Counting

variable {α : Type*} {p : α → Bool} {l : List α} {i : ℕ} {a b : α}

/-- The new element counts instead of the old one. -/
theorem countP_set_add (h : l[i]? = some a) :
    (l.set i b).countP p + (if p a then 1 else 0) = l.countP p + if p b then 1 else 0 := by
  obtain ⟨hlt, hget⟩ := List.getElem?_eq_some_iff.mp h
  have hle : (if p l[i] then 1 else 0) ≤ l.countP p := List.boole_getElem_le_countP hlt
  rw [hget] at hle
  rw [List.countP_set hlt, hget]
  omega

theorem countP_set_le (h : l[i]? = some a) (hp : p b = true → p a = true) :
    (l.set i b).countP p ≤ l.countP p := by
  have hset := countP_set_add (p := p) (b := b) h
  have hle : (if p b then 1 else 0) ≤ if p a then 1 else 0 := by
    cases hb : p b with
    | false => exact Nat.zero_le _
    | true => simp only [hp hb, if_true, Nat.le_refl]
  omega

theorem countP_concat_of_neg (h : p b = false) : (l ++ [b]).countP p = l.countP p := by
  rw [List.countP_append, List.countP_singleton, h]
  rfl

end Counting
