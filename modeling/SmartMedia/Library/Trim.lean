import Mathlib.Data.List.DropRight

/-!
# Lists without what a predicate holds of at their ends

A trimmed list is the only one that stands between such ends and has none of its own.
-/
namespace Trim
variable {α : Type*} {p : α → Bool} {l front core back : List α}

def trim (p : α → Bool) (l : List α) : List α := (l.dropWhile p).rdropWhile p

section OneEnd

theorem dropWhile_eq_self (h : ∀ x ∈ l.head?, p x = false) : l.dropWhile p = l := by
  cases l with
  | nil => rfl
  | cons x l => rw [List.dropWhile_cons, h x rfl, if_neg Bool.false_ne_true]

theorem rdropWhile_eq_self (h : ∀ x ∈ l.getLast?, p x = false) : l.rdropWhile p = l := by
  rw [List.rdropWhile, dropWhile_eq_self, List.reverse_reverse]
  rwa [List.head?_reverse]

theorem rdropWhile_append (h : ∀ x ∈ back, p x = true) :
    (l ++ back).rdropWhile p = l.rdropWhile p := by
  rw [List.rdropWhile, List.reverse_append, List.dropWhile_append_of_pos, List.rdropWhile]
  exact fun x hx => h x (List.mem_reverse.mp hx)

theorem head?_dropWhile (x : α) (hx : x ∈ (l.dropWhile p).head?) : p x = false := by
  rw [Option.mem_def] at hx
  have hnot := List.head?_dropWhile_not p l
  rw [hx] at hnot
  exact hnot

theorem getLast?_rdropWhile (x : α) (hx : x ∈ (l.rdropWhile p).getLast?) : p x = false := by
  rw [List.rdropWhile, List.getLast?_reverse] at hx
  exact head?_dropWhile x hx

end OneEnd

section BothEnds

theorem trim_append (hfront : ∀ x ∈ front, p x = true) (hback : ∀ x ∈ back, p x = true)
    (hhead : ∀ x ∈ core.head?, p x = false) (hlast : ∀ x ∈ core.getLast?, p x = false) :
    trim p (front ++ (core ++ back)) = core := by
  rw [trim, List.dropWhile_append_of_pos hfront]
  cases core with
  | nil =>
      rw [List.nil_append, List.rdropWhile_eq_nil_iff]
      exact fun x hx => hback x ((List.dropWhile_suffix p).subset hx)
  | cons y core =>
      rw [dropWhile_eq_self, rdropWhile_append hback, rdropWhile_eq_self hlast]
      exact hhead

theorem head?_trim (x : α) (hx : x ∈ (trim p l).head?) : p x = false := by
  obtain ⟨back, hback⟩ := List.rdropWhile_prefix p (l.dropWhile p)
  apply head?_dropWhile x (l := l)
  rw [Option.mem_def] at hx
  rw [← hback, Option.mem_def, ← trim, List.head?_append, hx, Option.some_or]

theorem getLast?_trim (x : α) (hx : x ∈ (trim p l).getLast?) : p x = false :=
  getLast?_rdropWhile x hx

/-- What was trimmed off. -/
theorem exists_eq_append_trim (p : α → Bool) (l : List α) :
    ∃ front back, l = front ++ (trim p l ++ back) ∧ (∀ x ∈ front, p x = true) ∧
      ∀ x ∈ back, p x = true := by
  refine ⟨l.takeWhile p, (l.dropWhile p).rtakeWhile p, ?_, ?_, ?_⟩
  · rw [trim, List.rdropWhile_append_rtakeWhile, List.takeWhile_append_dropWhile]
  · exact fun x hx => List.all_eq_true.mp List.all_takeWhile x hx
  · exact fun x hx => List.mem_rtakeWhile_imp hx

theorem trim_sublist (p : α → Bool) (l : List α) : (trim p l).Sublist l :=
  (List.rdropWhile_prefix p (l.dropWhile p)).sublist.trans (List.dropWhile_sublist p)

/-- What is not trimmed in front stays in front. -/
theorem mem_head?_trim {x : α} (hx : x ∈ l.head?) (hp : p x = false) : x ∈ (trim p l).head? := by
  have hfront : l.dropWhile p = l := by
    apply dropWhile_eq_self
    intro y hy
    rw [Option.mem_unique hy hx, hp]
  have hne : l.rdropWhile p ≠ [] := by
    rw [Ne, List.rdropWhile_eq_nil_iff]
    intro hall
    rw [hall x (List.mem_of_mem_head? hx)] at hp
    cases hp
  obtain ⟨back, hback⟩ := List.rdropWhile_prefix p l
  rw [← hback, List.head?_append_of_ne_nil _ hne] at hx
  rw [trim, hfront]
  exact hx

theorem trim_eq_self (hhead : ∀ x ∈ l.head?, p x = false) (hlast : ∀ x ∈ l.getLast?, p x = false) :
    trim p l = l := by
  rw [trim, dropWhile_eq_self hhead, rdropWhile_eq_self hlast]

/-- A list that ends in something to trim gets shorter. -/
theorem trim_ne_self {x : α} (hx : x ∈ l.getLast?) (hp : p x = true) : trim p l ≠ l := by
  intro htrim
  rw [← htrim] at hx
  rw [getLast?_trim x hx] at hp
  cases hp

theorem trim_map {f : α → α} (hf : ∀ x, p (f x) = p x) : trim p (l.map f) = (trim p l).map f := by
  have hcomp : p ∘ f = p := funext hf
  rw [trim, trim, List.rdropWhile, List.rdropWhile, List.dropWhile_map, hcomp, ← List.map_reverse,
    List.dropWhile_map, hcomp, List.map_reverse]

end BothEnds

end Trim
