import Mathlib.Data.List.Forall2

/-!
# Lists in parts

A list cut at a separator, maps of the parts that may fail, and checks.
-/
namespace Parts

/-- A check that raises is passed when its condition does not hold. -/
theorem check_ok_iff {ε α : Type} {c : Prop} [Decidable c] {e : ε} {rest : Except ε α} {v : α} :
    (if c then .error e else rest) = .ok v ↔ ¬c ∧ rest = .ok v := by
  split_ifs with hc
  · simp [hc]
  · simp [hc]

section Partial
variable {α β : Type} {f : α → Option β} {l : List α} {l' : List β} {a : α}

theorem mapM_eq_some_iff : l.mapM f = some l' ↔ List.Forall₂ (fun a b => f a = some b) l l' := by
  induction l generalizing l' with
  | nil =>
      rw [List.mapM_nil, List.forall₂_nil_left_iff]
      constructor
      · intro h
        exact (Option.some_inj.mp h).symm
      · rintro rfl
        rfl
  | cons a l ih =>
      rw [List.mapM_cons, List.forall₂_cons_left_iff]
      constructor
      · intro h
        obtain ⟨b, hb, h⟩ := Option.bind_eq_some_iff.mp h
        obtain ⟨bs, hbs, h⟩ := Option.bind_eq_some_iff.mp h
        exact ⟨b, bs, hb, ih.mp hbs, (Option.some_inj.mp h).symm⟩
      · rintro ⟨b, bs, hb, hbs, rfl⟩
        rw [hb, ih.mpr hbs]
        rfl

theorem exists_of_mapM (h : l.mapM f = some l') (ha : a ∈ l) : ∃ b, f a = some b := by
  induction l generalizing l' with
  | nil => cases ha
  | cons x l ih =>
      obtain ⟨b, bs, hb, hbs, -⟩ := List.forall₂_cons_left_iff.mp (mapM_eq_some_iff.mp h)
      rcases List.mem_cons.mp ha with rfl | ha
      · exact ⟨b, hb⟩
      · exact ih (mapM_eq_some_iff.mpr hbs) ha

theorem isSome_mapM_iff : (l.mapM f).isSome = true ↔ ∀ a ∈ l, (f a).isSome = true := by
  constructor
  · intro h a ha
    obtain ⟨l', hl'⟩ := Option.isSome_iff_exists.mp h
    exact Option.isSome_iff_exists.mpr (exists_of_mapM hl' ha)
  · intro h
    induction l with
    | nil => rfl
    | cons a l ih =>
        obtain ⟨ha, hl⟩ := List.forall_mem_cons.mp h
        obtain ⟨b, hb⟩ := Option.isSome_iff_exists.mp ha
        obtain ⟨bs, hbs⟩ := Option.isSome_iff_exists.mp (ih hl)
        rw [List.mapM_cons, hb, hbs]
        rfl

theorem length_of_mapM (h : l.mapM f = some l') : l.length = l'.length :=
  (mapM_eq_some_iff.mp h).length_eq

theorem mapM_eq_none (ha : a ∈ l) (h : f a = none) : l.mapM f = none := by
  by_contra hsome
  obtain ⟨l', hl'⟩ := Option.ne_none_iff_exists'.mp hsome
  obtain ⟨b, hb⟩ := exists_of_mapM hl' ha
  rw [h] at hb
  cases hb

end Partial

section Splitting
variable {α : Type} [DecidableEq α] {a x : α} {l : List α}

theorem mem_flatten_splitOn : x ∈ (l.splitOn a).flatten ↔ x ∈ l ∧ x ≠ a := by
  induction l with
  | nil => simp
  | cons y l ih =>
      rw [List.splitOn_cons_eq_if_modifyHead]
      obtain ⟨part, parts, hsplit⟩ := List.exists_cons_of_ne_nil (List.splitOn_ne_nil a l)
      rw [hsplit] at ih ⊢
      by_cases hy : y = a
      · rw [if_pos (beq_iff_eq.mpr hy), List.flatten_cons, List.nil_append, ih, List.mem_cons]
        constructor
        · rintro ⟨hx, hne⟩
          exact ⟨.inr hx, hne⟩
        · rintro ⟨rfl | hx, hne⟩
          · exact absurd hy hne
          · exact ⟨hx, hne⟩
      · have hflat : ((part :: parts).modifyHead (List.cons y)).flatten =
            y :: (part :: parts).flatten := rfl
        rw [if_neg (by simpa using hy), hflat, List.mem_cons, ih, List.mem_cons]
        constructor
        · rintro (rfl | ⟨hx, hne⟩)
          · exact ⟨.inl rfl, hy⟩
          · exact ⟨.inr hx, hne⟩
        · rintro ⟨rfl | hx, hne⟩
          · exact .inl rfl
          · exact .inr ⟨hx, hne⟩

/-- What is in no part is the separator or nowhere. -/
theorem of_mem {P : α → Prop} (h : ∀ part ∈ l.splitOn a, ∀ y ∈ part, P y) (hx : x ∈ l) :
    x = a ∨ P x := by
  by_cases hxa : x = a
  · exact .inl hxa
  · obtain ⟨part, hpart, hmem⟩ := List.mem_flatten.mp (mem_flatten_splitOn.mpr ⟨hx, hxa⟩)
    exact .inr (h part hpart x hmem)

theorem notMem_part {part : List α} (h : part ∈ l.splitOn a) : a ∉ part := fun ha =>
  (mem_flatten_splitOn.mp (List.mem_flatten.mpr ⟨part, h, ha⟩)).2 rfl

end Splitting

end Parts
