import Mathlib.Algebra.Order.Group.Defs
import Mathlib.Data.List.Basic
import Mathlib.Tactic.Common

/-!
# Sliding windows over times

Times are listed with the latest first. When each of them comes after fewer than `n` that are
less than `w` before it, no interval of length `w` has more than `n` of them.
-/
namespace SlidingWindow
variable {α : Type*} [AddCommGroup α] [LinearOrder α]

/-- The times that are less than `w` ago. -/
def recent (w now : α) (times : List α) : List α := times.filter fun t => now - t < w

def Spaced (n : ℕ) (w : α) : List α → Prop
  | [] => True
  | t :: earlier => (recent w t earlier).length < n ∧ Spaced n w earlier

variable {w now before a t : α} {times others : List α} {n : ℕ}

theorem recent_reverse : recent w now times.reverse = (recent w now times).reverse :=
  List.filter_reverse ..

/-- The latest time is the last one on the one side and the first on the other. -/
theorem recent_concat (heq : recent w now times = (recent w now others).reverse) (t : α) :
    recent w now (times ++ [t]) = (recent w now (t :: others)).reverse := by
  rw [recent, recent] at heq
  rw [recent, List.filter_append, heq, recent]
  by_cases ht : now - t < w <;> simp [ht]

variable [IsOrderedAddMonoid α]

/-- What has left the window does not come back. -/
theorem recent_recent (h : before ≤ now) :
    recent w now (recent w before times) = recent w now times := by
  rw [recent, recent, List.filter_filter, recent]
  apply List.filter_congr
  intro t _
  by_cases hnow : now - t < w
  · have hbefore : before - t < w := (sub_le_sub_right h t).trans_lt hnow
    rw [decide_eq_true hnow, decide_eq_true hbefore, Bool.true_and]
  · rw [decide_eq_false hnow, Bool.false_and]

/-- Times that agree on a window agree on the later ones. -/
theorem recent_congr_of_le (h : before ≤ now) (heq : recent w before times = recent w before others) :
    recent w now times = recent w now others := by
  rw [← recent_recent h, heq, recent_recent h]

/-- No interval of length `w` has more than `n` times. -/
theorem Spaced.length_le (h : Spaced n w times) (a : α) :
    (times.filter fun t => a ≤ t ∧ t < a + w).length ≤ n := by
  induction times with
  | nil => exact Nat.zero_le n
  | cons t earlier ih =>
      by_cases ht : a ≤ t ∧ t < a + w
      · rw [List.filter_cons_of_pos (by simpa using ht), List.length_cons]
        have hsub : (earlier.filter fun g => a ≤ g ∧ g < a + w).length ≤ (recent w t earlier).length := by
          apply List.Sublist.length_le
          apply List.monotone_filter_right
          intro g hg
          obtain ⟨hag, -⟩ := of_decide_eq_true hg
          apply decide_eq_true
          rw [sub_lt_iff_lt_add']
          exact ht.2.trans_le (add_le_add_left hag w)
        exact Nat.succ_le_of_lt (hsub.trans_lt h.1)
      · rw [List.filter_cons_of_neg (by simpa using ht)]
        exact ih h.2

end SlidingWindow
