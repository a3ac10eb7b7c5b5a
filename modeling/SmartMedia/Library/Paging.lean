import Mathlib.Data.List.Range
import Mathlib.Data.List.TakeDrop
import Mathlib.Tactic.Common

/-!
# Lists in pages

Pages are counted from 1; each is a window of the list.
-/
namespace Paging
variable {α : Type} (l : List α)

/-- Two consecutive windows are one. -/
theorem window_append (start size more : ℕ) :
    (l.drop start).take size ++ (l.drop (start + size)).take more =
      (l.drop start).take (size + more) := by
  rw [List.take_add, List.drop_drop]

/-- The first pages are the beginning of the list. -/
theorem windows_flatMap (size : ℕ) (pages : ℕ) :
    ((List.range' 1 pages).flatMap fun page => (l.drop ((page - 1) * size)).take size) =
      l.take (pages * size) := by
  induction pages with
  | zero => simp
  | succ pages ih =>
      rw [List.range'_concat, List.flatMap_append, ih, List.flatMap_singleton, Nat.one_mul,
        Nat.add_sub_cancel_left, Nat.add_mul, Nat.one_mul, List.take_add]

/-- The slices of a loop that goes through a list by batches. -/
def batches (size : ℕ) : List (List α) :=
  (List.range' 1 ((l.length + size - 1) / size)).map fun batch =>
    (l.drop ((batch - 1) * size)).take size

/-- The batches are the list, in order. -/
theorem flatten_batches {size : ℕ} (hsize : 0 < size) : (batches l size).flatten = l := by
  have hcover : l.length ≤ (l.length + size - 1) / size * size := by
    have hdiv := Nat.div_add_mod (l.length + size - 1) size
    have hmod := Nat.mod_lt (l.length + size - 1) hsize
    rw [Nat.mul_comm] at hdiv
    omega
  rw [batches, ← List.flatMap_def, windows_flatMap, List.take_of_length_le hcover]

end Paging
