import Mathlib.Data.List.Sort

/-!
# Sorting and filtering

A stable sort of what a filter leaves is the filter of what the sort leaves.
-/
namespace StableSort
variable {α : Type} {r : α → α → Prop} [DecidableRel r] {l : List α} {a : α}

theorem pairwise_orderedInsert (htrans : ∀ a b c, r a b → r b c → r a c)
    (htotal : ∀ b ∈ l, r a b ∨ r b a) (hl : l.Pairwise r) : (l.orderedInsert r a).Pairwise r := by
  induction l with
  | nil => exact List.pairwise_singleton r a
  | cons b l ih =>
      obtain ⟨hb, hrest⟩ := List.pairwise_cons.mp hl
      rw [List.orderedInsert]
      split_ifs with hab
      · exact List.pairwise_cons.mpr ⟨List.forall_mem_cons.mpr
          ⟨hab, fun c hc => htrans a b c hab (hb c hc)⟩, hl⟩
      · refine List.pairwise_cons.mpr
          ⟨fun c hc => ?_, ih (fun c hc => htotal c (List.mem_cons_of_mem b hc)) hrest⟩
        rcases (List.mem_orderedInsert r).mp hc with rfl | hc
        · exact (htotal b List.mem_cons_self).resolve_left hab
        · exact hb c hc

/-- Only the elements of the list need to be comparable. -/
theorem pairwise_insertionSort_of_pairwise (htrans : ∀ a b c, r a b → r b c → r a c)
    (htotal : l.Pairwise fun a b => r a b ∨ r b a) : (l.insertionSort r).Pairwise r := by
  induction l with
  | nil => exact List.Pairwise.nil
  | cons a l ih =>
      obtain ⟨ha, hl⟩ := List.pairwise_cons.mp htotal
      refine pairwise_orderedInsert htrans (fun b hb => ?_) (ih hl)
      exact ha b ((List.mem_insertionSort r).mp hb)

theorem pairwise_insertionSort (htrans : ∀ a b c, r a b → r b c → r a c)
    (htotal : ∀ a b, r a b ∨ r b a) (l : List α) : (l.insertionSort r).Pairwise r :=
  pairwise_insertionSort_of_pairwise htrans (List.pairwise_of_forall htotal)

/-- Before a sorted list nothing has to be passed. -/
theorem orderedInsert_of_forall (h : ∀ b ∈ l, r a b) : l.orderedInsert r a = a :: l := by
  cases l with
  | nil => rfl
  | cons b l => rw [List.orderedInsert, if_pos (h b List.mem_cons_self)]

theorem filter_orderedInsert (htrans : ∀ a b c, r a b → r b c → r a c) (p : α → Bool)
    (hl : l.Pairwise r) : (l.orderedInsert r a).filter p =
      if p a then (l.filter p).orderedInsert r a else l.filter p := by
  induction l with
  | nil =>
      rw [List.orderedInsert, List.filter_cons]
      rfl
  | cons b l ih =>
      obtain ⟨hb, hrest⟩ := List.pairwise_cons.mp hl
      rw [List.orderedInsert]
      by_cases hab : r a b
      · rw [if_pos hab, List.filter_cons]
        split_ifs with ha
        · -- what is left of a sorted list after an element still comes after it
          refine (orderedInsert_of_forall fun c hc => ?_).symm
          rcases List.mem_cons.mp (List.mem_of_mem_filter hc) with rfl | hc
          · exact hab
          · exact htrans a b c hab (hb c hc)
        · rfl
      · rw [if_neg hab, List.filter_cons, ih hrest, List.filter_cons]
        by_cases hpb : p b = true
        · rw [if_pos hpb, if_pos hpb]
          split_ifs
          · rw [List.orderedInsert, if_neg hab]
          · rfl
        · rw [if_neg hpb, if_neg hpb]

theorem filter_insertionSort (htrans : ∀ a b c, r a b → r b c → r a c)
    (htotal : ∀ a b, r a b ∨ r b a) (p : α → Bool) (l : List α) :
    (l.insertionSort r).filter p = (l.filter p).insertionSort r := by
  induction l with
  | nil => rfl
  | cons a l ih =>
      rw [List.insertionSort_cons,
        filter_orderedInsert htrans p (pairwise_insertionSort htrans htotal l), ih,
        List.filter_cons]
      split_ifs
      · rw [List.insertionSort_cons]
      · rfl

theorem orderedInsert_before {x : α} {front back : List α} (h : r a x) :
    (front ++ x :: back).orderedInsert r a = front.orderedInsert r a ++ x :: back := by
  induction front with
  | nil =>
      change (x :: back).orderedInsert r a = a :: x :: back
      rw [List.orderedInsert, if_pos h]
  | cons b front ih =>
      rw [List.cons_append, List.orderedInsert, List.orderedInsert, ih]
      split_ifs <;> rfl

theorem orderedInsert_behind {x : α} {front back : List α} (hfront : ∀ b ∈ front, ¬ r a b)
    (hx : ¬ r a x) :
    (front ++ x :: back).orderedInsert r a = front ++ x :: back.orderedInsert r a := by
  induction front with
  | nil => rw [List.nil_append, List.orderedInsert, if_neg hx, List.nil_append]
  | cons b front ih =>
      rw [List.cons_append, List.orderedInsert, if_neg (hfront b List.mem_cons_self),
        ih fun c hc => hfront c (List.mem_cons_of_mem b hc), List.cons_append]

/-- Where the last element comes: behind all that may stand before it. -/
theorem insertionSort_concat (htrans : ∀ a b c, r a b → r b c → r a c) (l : List α) (x : α) :
    (l ++ [x]).insertionSort r =
      (l.filter (r · x)).insertionSort r ++ x :: (l.filter (¬ r · x)).insertionSort r := by
  induction l with
  | nil => rfl
  | cons a l ih =>
      rw [List.cons_append, List.insertionSort_cons, ih, List.filter_cons, List.filter_cons]
      by_cases hax : r a x
      · rw [if_pos (decide_eq_true hax), if_neg (by simpa using hax), List.insertionSort_cons]
        exact orderedInsert_before hax
      · rw [if_neg (by simpa using hax), if_pos (by simpa using hax), List.insertionSort_cons]
        refine orderedInsert_behind (fun b hb hab => hax (htrans a b x hab ?_)) hax
        exact of_decide_eq_true (List.mem_filter.mp ((List.mem_insertionSort r).mp hb)).2

end StableSort
