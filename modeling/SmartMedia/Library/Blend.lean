import Mathlib.Algebra.Order.Field.Basic
import Mathlib.Tactic.Linarith
import Mathlib.Tactic.Ring

/-!
# Blends

A blend of two values by a weight. If the weight of the first one falls as that value grows, the
blend still grows as long as the first value is below the second one.
-/
namespace Blend
variable {K : Type} [Field K]

/-- `weight` of `x` and the rest of `y`. -/
def blend (weight x y : K) : K := weight * x + (1 - weight) * y

variable {weight weight' x x' y : K}

@[simp] theorem blend_one : blend 1 x y = x := by
  rw [blend, one_mul, sub_self, zero_mul, add_zero]

/-- What a smaller weight of `x` changes. -/
theorem blend_sub : blend weight' x y - blend weight x y = (weight - weight') * (y - x) := by
  unfold blend
  ring

variable [LinearOrder K] [IsStrictOrderedRing K]

theorem blend_mono (hweight : 0 ≤ weight) (hx : x ≤ x') : blend weight x y ≤ blend weight x' y := by
  unfold blend
  have hscaled := mul_le_mul_of_nonneg_left hx hweight
  linarith

theorem blend_le_blend_iff (hweight : weight' < weight) :
    blend weight x y ≤ blend weight' x y ↔ x ≤ y := by
  rw [← sub_nonneg, blend_sub, mul_nonneg_iff_of_pos_left (sub_pos.mpr hweight), sub_nonneg]

/-- A weight may fall where the first value is not above the second one. -/
theorem blend_le_blend (hweight' : 0 ≤ weight') (hweight : weight' ≤ weight) (hx : x ≤ x')
    (h : weight' = weight ∨ x ≤ y) : blend weight x y ≤ blend weight' x' y := by
  refine le_trans ?_ (blend_mono hweight' hx)
  rcases h with rfl | hxy
  · exact le_rfl
  · rw [← sub_nonneg, blend_sub]
    exact mul_nonneg (sub_nonneg.mpr hweight) (sub_nonneg.mpr hxy)

/-- A bound on the blends below a value holds at the value. -/
theorem blend_le_of_forall_lt {low z : K} (hweight : 0 < weight) (hlow : low < x)
    (h : ∀ t, low ≤ t → t < x → blend weight t y ≤ z) : blend weight x y ≤ z := by
  have hx : x ≤ (z - (1 - weight) * y) / weight := by
    refine le_of_forall_lt_imp_le_of_dense fun t ht => ?_
    have hbound := h (max low t) (le_max_left low t) (max_lt hlow ht)
    refine (le_max_right low t).trans ?_
    rw [le_div_iff₀ hweight, mul_comm]
    exact le_sub_right_of_add_le hbound
  rw [le_div_iff₀ hweight, mul_comm] at hx
  exact le_sub_iff_add_le.mp hx

end Blend
