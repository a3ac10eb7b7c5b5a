import SmartMedia.Media.StrmGenerator

/-!
# Components of paths

The parts of a path between its slashes, and those that `normpath` keeps.
-/
namespace SmartMedia.Media

section Components
variable {a b : Path} {parts : List Path}

theorem splitSlash_append (ha : '/' ∉ a) : splitSlash (a ++ '/' :: b) = a :: splitSlash b := by
  induction a with
  | nil => rfl
  | cons c cs ih =>
      rw [List.mem_cons, not_or] at ha
      rw [List.cons_append, splitSlash, if_neg (Ne.symm ha.1), ih ha.2]
      rfl

theorem splitSlash_of_notMem (ha : '/' ∉ a) : splitSlash a = [a] := by
  induction a with
  | nil => rfl
  | cons c cs ih =>
      rw [List.mem_cons, not_or] at ha
      rw [splitSlash, if_neg (Ne.symm ha.1), ih ha.2]
      rfl

theorem splitSlash_ne_nil (p : Path) : splitSlash p ≠ [] := by
  cases p with
  | nil => simp [splitSlash]
  | cons c cs =>
      rw [splitSlash]
      split_ifs <;> simp

theorem splitSlash_slash (p q : Path) :
    splitSlash (p ++ '/' :: q) = splitSlash p ++ splitSlash q := by
  induction p with
  | nil => rfl
  | cons c cs ih =>
      rw [List.cons_append, splitSlash, splitSlash, ih]
      obtain ⟨first, rest, hsplit⟩ := List.exists_cons_of_ne_nil (splitSlash_ne_nil cs)
      rw [hsplit]
      split_ifs <;> rfl

theorem components_append (p q : Path) :
    components (p ++ '/' :: q) = components p ++ components q := by
  rw [components, splitSlash_slash, List.filter_append, components, components]

/-- A component that `normpath` keeps. -/
structure Plain (part : Path) : Prop where
  nonempty : part ≠ []
  noSlash : '/' ∉ part
  notDot : part ≠ ['.']
  notDots : part ≠ ['.', '.']

theorem FileName.plain (name : FileName) : Plain name.chars :=
  ⟨name.nonempty, name.noSlash, name.notDot, name.notDots⟩

theorem components_cons (ha : Plain a) : components (a ++ '/' :: b) = a :: components b := by
  rw [components, splitSlash_append ha.noSlash, List.filter_cons, if_pos (by simpa using ha.nonempty),
    components]

theorem components_slash : components ('/' :: b) = components b := rfl

theorem components_plain (ha : Plain a) : components a = [a] := by
  rw [components, splitSlash_of_notMem ha.noSlash, List.filter_cons,
    if_pos (by simpa using ha.nonempty), List.filter_nil]

/-- A suffix keeps a name a component. -/
theorem Plain.append_strm (h : '/' ∉ a) : Plain (a ++ ".strm".toList) := by
  have hlength : 5 ≤ (a ++ ".strm".toList).length := by simp
  refine ⟨fun he => ?_, ?_, fun he => ?_, fun he => ?_⟩
  · rw [he] at hlength
    simp at hlength
  · rw [List.mem_append, not_or]
    exact ⟨h, by decide⟩
  · rw [he] at hlength
    simp at hlength
  · rw [he] at hlength
    simp at hlength

/-- What leads nowhere else is kept. -/
theorem normalize_append_of_dotless (before : List Path)
    (hparts : ∀ p ∈ parts, p ≠ ['.'] ∧ p ≠ ['.', '.']) :
    normalize (before ++ parts) = normalize before ++ parts := by
  rw [normalize, normalize, List.foldl_append]
  generalize (List.foldl _ [] _ : List Path) = acc
  induction parts generalizing acc with
  | nil => exact (List.append_nil acc).symm
  | cons part parts ih =>
      have hpart := hparts part List.mem_cons_self
      rw [List.foldl_cons, if_neg hpart.1, if_neg hpart.2,
        ih fun p hp => hparts p (List.mem_cons_of_mem _ hp), List.append_assoc]
      rfl

theorem normalize_append (before : List Path) (hparts : ∀ p ∈ parts, Plain p) :
    normalize (before ++ parts) = normalize before ++ parts :=
  normalize_append_of_dotless before fun p hp => ⟨(hparts p hp).notDot, (hparts p hp).notDots⟩

theorem resolve_append_of_dotless (cwd : List Path) (directory : Path)
    (hparts : ∀ p ∈ parts, p ≠ ['.'] ∧ p ≠ ['.', '.']) :
    resolve cwd directory parts = resolve cwd directory [] ++ parts := by
  rw [resolve, resolve, normalize_append_of_dotless _ hparts, List.append_nil]

theorem resolve_append (cwd : List Path) (directory : Path) (hparts : ∀ p ∈ parts, Plain p) :
    resolve cwd directory parts = resolve cwd directory [] ++ parts :=
  resolve_append_of_dotless cwd directory fun p hp => ⟨(hparts p hp).notDot, (hparts p hp).notDots⟩

theorem mem_components {p n : Path} (h : n ∈ components p) : n ≠ [] ∧ '/' ∉ n := by
  rw [components, List.mem_filter, decide_eq_true_iff] at h
  refine ⟨h.2, ?_⟩
  have hall : ∀ p : Path, ∀ n ∈ splitSlash p, '/' ∉ n := by
    intro p
    induction p with
    | nil => simp [splitSlash]
    | cons c cs ih =>
        obtain ⟨head, tail, hsplit⟩ := List.exists_cons_of_ne_nil (splitSlash_ne_nil cs)
        rw [hsplit, List.forall_mem_cons] at ih
        rw [splitSlash, hsplit]
        split
        · rw [List.forall_mem_cons, List.forall_mem_cons]
          exact ⟨List.not_mem_nil, ih⟩
        · rename_i hc
          rw [List.forall_mem_cons]
          refine ⟨?_, ih.2⟩
          rw [List.headD_cons, List.mem_cons, not_or]
          exact ⟨Ne.symm hc, ih.1⟩
  exact hall p n h.1

/-- What is kept of a path are its own components. -/
theorem mem_normalize {p : Path} (h : p ∈ normalize parts) :
    p ∈ parts ∧ p ≠ ['.'] ∧ p ≠ ['.', '.'] := by
  induction parts using List.reverseRecOn with
  | nil => cases h
  | append_singleton parts c ih =>
      rw [normalize, List.foldl_concat] at h
      rw [normalize] at ih
      split_ifs at h with hdot hdots
      · exact ⟨List.mem_append_left _ (ih h).1, (ih h).2⟩
      · have hkept := ih (List.mem_of_mem_dropLast h)
        exact ⟨List.mem_append_left _ hkept.1, hkept.2⟩
      · rcases List.mem_append.mp h with h | h
        · exact ⟨List.mem_append_left _ (ih h).1, (ih h).2⟩
        · rw [List.mem_singleton.mp h]
          exact ⟨by simp, hdot, hdots⟩

theorem plain_normalize (p : Path) : ∀ c ∈ normalize (components p), Plain c := by
  intro c hc
  obtain ⟨hmem, hdot, hdots⟩ := mem_normalize hc
  obtain ⟨hne, hslash⟩ := mem_components hmem
  exact ⟨hne, hslash, hdot, hdots⟩

end Components

end SmartMedia.Media
