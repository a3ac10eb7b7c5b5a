import Mathlib.Logic.Function.Basic
import Mathlib.Order.Defs.PartialOrder
import Mathlib.Tactic.Common

/-!
# Maps whose entries expire

An entry that is over at some moment is over later. What a reader can see of a map at a moment is
its entries that are not yet over. Two maps agree when readers at certain moments see the same;
taking away what is over changes nothing for later readers.
-/
namespace ExpiringMap
variable {κ α τ : Type*}

/-- The entries that a reader sees; `alive t a` says that the entry `a` is not over at `t`. -/
def view (alive : τ → α → Bool) (t : τ) (m : κ → Option α) : κ → Option α :=
  fun k => (m k).filter (alive t)

/-- Readers at the moments `P` see the same. -/
def Agree (alive : τ → α → Bool) (P : τ → Prop) (m m' : κ → Option α) : Prop :=
  ∀ t, P t → view alive t m = view alive t m'

variable {alive : τ → α → Bool} {P Q : τ → Prop} {m m' n : κ → Option α} {s t : τ}

theorem Agree.refl (m : κ → Option α) : Agree alive P m m := fun _ _ => rfl

theorem Agree.symm (h : Agree alive P m m') : Agree alive P m' m := fun t ht => (h t ht).symm

theorem Agree.trans (h : Agree alive P m m') (h' : Agree alive P m' n) : Agree alive P m n :=
  fun t ht => (h t ht).trans (h' t ht)

theorem Agree.mono (h : Agree alive P m m') (hPQ : ∀ t, Q t → P t) : Agree alive Q m m' :=
  fun t ht => h t (hPQ t ht)

section Updates
variable [DecidableEq κ]

theorem view_update (m : κ → Option α) (k : κ) (x : Option α) :
    view alive t (Function.update m k x) = Function.update (view alive t m) k (x.filter (alive t)) := by
  funext j
  by_cases hj : j = k
  · rw [view, hj, Function.update_self, Function.update_self]
  · rw [view, Function.update_of_ne hj, Function.update_of_ne hj, view]

/-- The same change on both sides. -/
theorem Agree.update (h : Agree alive P m m') (k : κ) (x : Option α) :
    Agree alive P (Function.update m k x) (Function.update m' k x) := by
  intro t ht
  rw [view_update, view_update, h t ht]

end Updates

section Pruning
variable [Preorder τ]

def Expires (alive : τ → α → Bool) : Prop := ∀ s t a, s ≤ t → alive t a = true → alive s a = true

/-- What is over at `s` is not seen later. -/
theorem view_view (h : Expires alive) (hst : s ≤ t) (m : κ → Option α) :
    view alive t (view alive s m) = view alive t m := by
  funext k
  rw [view, view, view]
  cases hm : m k with
  | none => rfl
  | some a =>
      by_cases hs : alive s a = true
      · rw [Option.filter_some, if_pos hs]
      · have ht : ¬ alive t a = true := fun ht => hs (h s t a hst ht)
        rw [Option.filter_some, if_neg hs, Option.filter_some, if_neg ht, Option.filter_none]

/-- Some of the entries that are over may be taken away, and no others. -/
theorem agree_of_pruned (h : Expires alive)
    (hpruned : ∀ k, m' k = m k ∨ m' k = (m k).filter (alive s)) :
    Agree alive (fun t => s ≤ t) m m' := by
  intro t hst
  funext k
  have hview := congrFun (view_view h hst m) k
  rcases hpruned k with hk | hk
  · rw [view, view, hk]
  · rw [view, view, view] at hview
    rw [view, view, hk, hview]

/-- It goes unnoticed by the readers behind it. -/
theorem Agree.of_pruned (hagree : Agree alive P m n) (h : Expires alive)
    (hpruned : ∀ k, m' k = m k ∨ m' k = (m k).filter (alive s)) :
    Agree alive (fun t => P t ∧ s ≤ t) m' n :=
  ((agree_of_pruned h hpruned).symm.mono fun _ ht => ht.2).trans (hagree.mono fun _ ht => ht.1)

end Pruning

end ExpiringMap
