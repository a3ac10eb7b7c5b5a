import SmartMedia.Media.PathComponents
import SmartMedia.Media.Validators

/-!
# Absolute paths

What `normpath` makes of an absolute path is one or two slashes and the components that it keeps.
So a prefix that ends with a slash is a directory above, unless it is only slashes.
-/
namespace SmartMedia.Media
open PosixPath

section Joined
variable {c d : Path} {cs ds : List Path}

theorem joinSlash_singleton (c : Path) : joinSlash [c] = c := by simp [joinSlash, List.intercalate]

theorem joinSlash_cons_cons (c d : Path) (cs : List Path) :
    joinSlash (c :: d :: cs) = c ++ '/' :: joinSlash (d :: cs) := by
  simp [joinSlash, List.intercalate]

theorem joinSlash_append (hds : ds ≠ []) (hcs : cs ≠ []) :
    joinSlash (ds ++ cs) = joinSlash ds ++ '/' :: joinSlash cs := by
  induction ds with
  | nil => exact absurd rfl hds
  | cons d ds ih =>
      cases ds with
      | nil =>
          obtain ⟨c, rest, rfl⟩ := List.exists_cons_of_ne_nil hcs
          rw [List.singleton_append, joinSlash_cons_cons, joinSlash_singleton]
      | cons e ds =>
          have hrest := ih (by simp)
          rw [List.cons_append] at hrest
          rw [List.cons_append, List.cons_append, joinSlash_cons_cons, hrest, joinSlash_cons_cons,
            List.append_assoc, List.cons_append]

/-- Components are found again between the slashes. -/
theorem splitSlash_joinSlash (hcs : ∀ c ∈ cs, '/' ∉ c) (hne : cs ≠ []) :
    splitSlash (joinSlash cs) = cs := by
  induction cs with
  | nil => exact absurd rfl hne
  | cons c cs ih =>
      have hc := hcs c List.mem_cons_self
      cases cs with
      | nil => rw [joinSlash_singleton, splitSlash_of_notMem hc]
      | cons d cs =>
          rw [joinSlash_cons_cons, splitSlash_append hc,
            ih (fun e he => hcs e (List.mem_cons_of_mem c he)) (by simp)]

/-- A directory with a slash after it begins the path of what is below it. -/
theorem joinSlash_slash_isPrefix (hds : ∀ d ∈ ds, '/' ∉ d) (hcs : ∀ c ∈ cs, '/' ∉ c) (hne : ds ≠ []) :
    joinSlash ds ++ ['/'] <+: joinSlash cs ↔ ds <+: cs ∧ ds ≠ cs := by
  constructor
  · rintro ⟨rest, hrest⟩
    rw [List.append_assoc, List.singleton_append] at hrest
    have hcsne : cs ≠ [] := by
      rintro rfl
      have hlength := congrArg List.length hrest
      simp [joinSlash] at hlength
    have hsplit := congrArg splitSlash hrest
    rw [splitSlash_slash, splitSlash_joinSlash hds hne, splitSlash_joinSlash hcs hcsne] at hsplit
    refine ⟨⟨splitSlash rest, hsplit⟩, ?_⟩
    rintro rfl
    exact splitSlash_ne_nil rest (List.append_right_eq_self.mp hsplit)
  · rintro ⟨⟨es, rfl⟩, hneq⟩
    have hes : es ≠ [] := by
      rintro rfl
      exact hneq (List.append_nil ds).symm
    refine ⟨joinSlash es, ?_⟩
    rw [joinSlash_append hne hes, List.append_assoc, List.singleton_append]

end Joined

section Collapse

/-- Nothing leads above the root. -/
theorem collapse_rooted (parts : List Path) :
    collapse true parts = normalize (parts.filter (· ≠ [])) := by
  induction parts using List.reverseRecOn with
  | nil => rfl
  | append_singleton parts part ih =>
      rw [collapse] at ih
      rw [collapse, List.foldl_concat, ih, List.filter_append, List.filter_singleton]
      by_cases hnil : part = []
      · rw [if_pos (.inl hnil), hnil]
        simp
      have hkept : (bif decide (part ≠ []) then [part] else []) = [part] := by simp [hnil]
      rw [hkept]
      have hstep : normalize (parts.filter (· ≠ []) ++ [part]) =
          if part = ['.'] then normalize (parts.filter (· ≠ []))
          else if part = ['.', '.'] then (normalize (parts.filter (· ≠ []))).dropLast
          else normalize (parts.filter (· ≠ [])) ++ [part] := by
        rw [normalize, List.foldl_concat]
        rfl
      rw [hstep]
      have hlast : (normalize (parts.filter (· ≠ []))).getLast? ≠ some ['.', '.'] := by
        intro h
        exact (mem_normalize (List.mem_of_getLast? h)).2.2 rfl
      by_cases hdot : part = ['.']
      · rw [if_pos (.inr hdot), if_pos hdot]
      rw [if_neg (by simp [hnil, hdot]), if_neg hdot]
      by_cases hdots : part = ['.', '.']
      · rw [if_pos hdots, if_neg]
        rintro (h | h | h)
        · exact h hdots
        · exact absurd h.1 (by decide)
        · exact hlast h
      · rw [if_neg hdots, if_pos (.inl hdots)]

end Collapse

section Absolute
variable {p : Path} {cs ds : List Path} {k k' : ℕ}

/-- So many slashes, and the components. -/
def rooted (slashes : ℕ) (parts : List Path) : Path :=
  List.replicate slashes '/' ++ joinSlash parts

theorem initialSlashes_cases (h : isabs p = true) : initialSlashes p = 1 ∨ initialSlashes p = 2 := by
  rw [initialSlashes, if_pos h]
  split_ifs
  · exact .inr rfl
  · exact .inl rfl

theorem normpath_of_isabs (h : isabs p = true) :
    normpath p = rooted (initialSlashes p) (normalize (components p)) := by
  have hslashes : decide (initialSlashes p ≠ 0) = true := by
    rcases initialSlashes_cases h with hk | hk
    · rw [hk]
      rfl
    · rw [hk]
      rfl
  rw [normpath]
  rw [hslashes, collapse_rooted, ← components, rooted, if_neg]
  intro hnil
  rcases initialSlashes_cases h with hk | hk
  · rw [hk] at hnil
    cases hnil
  · rw [hk] at hnil
    cases hnil

theorem components_rooted (hcs : ∀ c ∈ cs, Plain c) (k : ℕ) : components (rooted k cs) = cs := by
  induction k with
  | zero =>
      rw [rooted, List.replicate_zero, List.nil_append]
      by_cases hne : cs = []
      · rw [hne]
        rfl
      · rw [components, splitSlash_joinSlash (fun c hc => (hcs c hc).noSlash) hne,
          List.filter_eq_self]
        exact fun c hc => decide_eq_true (hcs c hc).nonempty
  | succ k ih =>
      rw [rooted, List.replicate_succ, List.cons_append, components_slash]
      exact ih

/-- The components do not begin with a slash. -/
theorem head_joinSlash (hcs : ∀ c ∈ cs, Plain c) : (joinSlash cs).head? ≠ some '/' := by
  cases cs with
  | nil => simp [joinSlash]
  | cons c cs =>
      have hc := hcs c List.mem_cons_self
      obtain ⟨e, c, rfl⟩ := List.exists_cons_of_ne_nil hc.nonempty
      have hne : e ≠ '/' := fun h => hc.noSlash (h ▸ List.mem_cons_self)
      cases cs with
      | nil =>
          rw [joinSlash_singleton]
          simpa using hne
      | cons d cs =>
          rw [joinSlash_cons_cons]
          simpa using hne

theorem joinSlash_ne_nil (hcs : ∀ c ∈ cs, Plain c) (hne : cs ≠ []) : joinSlash cs ≠ [] := by
  intro hnil
  have hparts := components_rooted hcs 0
  rw [rooted, List.replicate_zero, List.nil_append, hnil] at hparts
  exact hne hparts.symm

/-- The slashes and the components are found again. -/
theorem rooted_inj (hcs : ∀ c ∈ cs, Plain c) (hds : ∀ d ∈ ds, Plain d) :
    rooted k cs = rooted k' ds ↔ k = k' ∧ cs = ds := by
  constructor
  · intro h
    have hparts : cs = ds := by
      rw [← components_rooted hcs k, h, components_rooted hds]
    subst hparts
    have hlength := congrArg List.length (List.append_cancel_right h)
    rw [List.length_replicate, List.length_replicate] at hlength
    exact ⟨hlength, rfl⟩
  · rintro ⟨rfl, rfl⟩
    rfl

theorem initialSlashes_rooted (hcs : ∀ c ∈ cs, Plain c) (hk : k = 1 ∨ k = 2) :
    initialSlashes (rooted k cs) = k := by
  have hhead := head_joinSlash hcs
  generalize hbody : joinSlash cs = body at hhead
  rw [rooted, hbody]
  rcases hk with rfl | rfl
  · cases body with
    | nil => decide
    | cons c body =>
        have hc : '/' ≠ c := fun h => hhead (h ▸ rfl)
        simp [initialSlashes, isabs, hc]
  · cases body with
    | nil => decide
    | cons c body =>
        have hc : '/' ≠ c := fun h => hhead (h ▸ rfl)
        simp [initialSlashes, isabs, List.replicate, hc]

/-- The absolute path of anything is a root and components. -/
theorem abspath_eq_rooted {cwd : Path} (hcwd : isabs cwd = true) (p : Path) :
    ∃ k cs, (k = 1 ∨ k = 2) ∧ (∀ c ∈ cs, Plain c) ∧ abspath cwd p = rooted k cs := by
  have habsolute : isabs (if isabs p then p else join cwd p) = true := by
    split_ifs with hp
    · exact hp
    · have hhead : cwd.head? = some '/' := of_decide_eq_true hcwd
      have hrelative : p.head? ≠ some '/' := fun h => hp (decide_eq_true h)
      have hne : cwd ≠ [] := by
        rintro rfl
        cases hhead
      rw [join, if_neg hrelative]
      split_ifs
      · rw [isabs, List.head?_append_of_ne_nil _ hne, hhead]
        rfl
      · rw [isabs, List.head?_append_of_ne_nil _ hne, hhead]
        rfl
  exact ⟨_, _, initialSlashes_cases habsolute, plain_normalize _, normpath_of_isabs habsolute⟩

theorem slash_not_isPrefix {s : Path} (hcs : ∀ c ∈ cs, Plain c) : ¬ '/' :: s <+: joinSlash cs := by
  rintro ⟨rest, hrest⟩
  apply head_joinSlash hcs
  rw [← hrest]
  rfl

theorem not_prefix_slash {s : Path} (hds : ∀ d ∈ ds, Plain d) (hne : ds ≠ []) :
    ¬ joinSlash ds ++ ['/'] <+: '/' :: s := by
  rintro ⟨rest, hrest⟩
  obtain ⟨c, tail, htail⟩ := List.exists_cons_of_ne_nil (joinSlash_ne_nil hds hne)
  have hhead := head_joinSlash hds
  rw [htail] at hrest hhead
  exact hhead (congrArg some (List.cons.inj hrest).1)

/-- The test by prefixes finds the directories above, but not below a root; and it takes two
slashes for something below one. -/
theorem isWithin_rooted (hcs : ∀ c ∈ cs, Plain c) (hds : ∀ d ∈ ds, Plain d) (hk : k = 1 ∨ k = 2)
    (hk' : k' = 1 ∨ k' = 2) :
    isWithin (rooted k cs) (rooted k' ds) = true ↔
      if ds = [] then k = 2 ∧ k' = 1 ∨ k = k' ∧ cs = [] else k = k' ∧ ds <+: cs := by
  have hslash := joinSlash_slash_isPrefix (fun d hd => (hds d hd).noSlash)
    (fun c hc => (hcs c hc).noSlash)
  have hsame : joinSlash ds ++ ['/'] <+: joinSlash cs ∨ cs = ds ↔
      if ds = [] then cs = [] else ds <+: cs := by
    split_ifs with hnil
    · subst hnil
      constructor
      · rintro (h | h)
        · exact absurd h (slash_not_isPrefix hcs)
        · exact h
      · exact .inr
    · rw [hslash hnil]
      constructor
      · rintro (h | rfl)
        · exact h.1
        · exact List.prefix_rfl
      · intro h
        by_cases heq : cs = ds
        · exact .inr heq
        · exact .inl ⟨h, Ne.symm heq⟩
  rw [isWithin, Bool.or_eq_true, List.isPrefixOf_iff_prefix, decide_eq_true_iff,
    rooted_inj hcs hds]
  rcases hk with rfl | rfl
  · rcases hk' with rfl | rfl
    · have hbegins : rooted 1 ds ++ ['/'] <+: rooted 1 cs ↔ joinSlash ds ++ ['/'] <+: joinSlash cs :=
        List.prefix_cons_inj '/'
      rw [hbegins]
      simpa using hsame
    · have hbegins : ¬ rooted 2 ds ++ ['/'] <+: rooted 1 cs := fun h =>
        slash_not_isPrefix hcs ((List.prefix_cons_inj '/').mp h)
      simp [hbegins]
  · rcases hk' with rfl | rfl
    · have hbegins : rooted 1 ds ++ ['/'] <+: rooted 2 cs ↔
          joinSlash ds ++ ['/'] <+: '/' :: joinSlash cs := List.prefix_cons_inj '/'
      rw [hbegins]
      split_ifs with hnil
      · subst hnil
        simp [joinSlash]
      · simp [not_prefix_slash hds hnil]
    · have hbegins : rooted 2 ds ++ ['/'] <+: rooted 2 cs ↔ joinSlash ds ++ ['/'] <+: joinSlash cs :=
        (List.prefix_cons_inj '/').trans (List.prefix_cons_inj '/')
      rw [hbegins]
      simpa using hsame

end Absolute

end SmartMedia.Media
