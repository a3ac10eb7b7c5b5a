import Mathlib.Algebra.Order.BigOperators.Group.Finset
import Mathlib.Algebra.Order.Group.Multiset
import Mathlib.Data.Finset.Image

/-!
# Trees of directories, files and links

A tree takes finitely many paths, lists of names from the root on, to what is there. The root is
a directory, and so is every path below which there is something. New things are put into
directories, and what is below a path is taken away or put elsewhere as a whole. The multiset of
the contents of all files is kept by all of this, but for the files that are taken away.
-/
universe u v w

/-- What a path leads to; a link has a target. -/
inductive Node (τ : Type v) (β : Type w)
  | dir
  | file (content : β)
  | link (target : τ)
  deriving DecidableEq, Repr

/-- Directories are told apart whatever files contain. -/
instance Node.decidableDir {τ : Type v} {β : Type w} :
    (x : Option (Node τ β)) → Decidable (x = some .dir)
  | none => .isFalse (by simp)
  | some .dir => .isTrue rfl
  | some (.file _) => .isFalse (by simp)
  | some (.link _) => .isFalse (by simp)

structure FileTree (π : Type u) (τ : Type v) (β : Type w) where
  lookup : List π → Option (Node τ β)
  keys : Finset (List π)
  mem_keys : ∀ p, p ∈ keys ↔ lookup p ≠ none
  root : lookup [] = some .dir
  closed : ∀ p n, lookup (p ++ [n]) ≠ none → lookup p = some .dir

namespace FileTree
variable {π : Type u} {τ : Type v} {β : Type w} {t t' : FileTree π τ β} {p q r : List π} {n : π}
  {x : Node τ β}

@[ext] theorem ext (h : ∀ p, t.lookup p = t'.lookup p) : t = t' := by
  have hlookup : t.lookup = t'.lookup := funext h
  have hkeys : t.keys = t'.keys := by
    apply Finset.ext
    intro p
    rw [t.mem_keys, t'.mem_keys, hlookup]
  cases t
  cases t'
  cases hlookup
  cases hkeys
  rfl

theorem concat_not_prefix_self (p : List π) (n : π) : ¬ p ++ [n] <+: p := by
  intro h
  have hlength := h.length_le
  rw [List.length_append, List.length_singleton] at hlength
  omega

section Closed

/-- Above what there is, there are directories. -/
theorem lookup_above (h : t.lookup (p ++ n :: q) ≠ none) : t.lookup p = some .dir := by
  induction q using List.reverseRecOn with
  | nil => exact t.closed p n h
  | append_singleton q m ih =>
      apply ih
      rw [← List.cons_append, ← List.append_assoc] at h
      rw [t.closed _ m h]
      exact Option.some_ne_none _

/-- Below what is not a directory there is nothing. -/
theorem lookup_below (h : t.lookup p ≠ some .dir) (hpr : p <+: r) (hne : r ≠ p) :
    t.lookup r = none := by
  obtain ⟨q, rfl⟩ := hpr
  cases q with
  | nil => exact absurd (List.append_nil p) hne
  | cons n q =>
      by_contra hsome
      exact h (lookup_above hsome)

theorem lookup_of_absent (h : t.lookup p = none) (hpr : p <+: r) : t.lookup r = none := by
  by_cases hrp : r = p
  · rw [hrp, h]
  · exact lookup_below (by rw [h]; exact Option.some_ne_none _ |>.symm) hpr hrp

end Closed

section Operations
variable [DecidableEq π]

/-- The root alone. -/
def bare : FileTree π τ β where
  lookup r := if r = [] then some .dir else none
  keys := {[]}
  mem_keys r := by
    rw [Finset.mem_singleton]
    split_ifs with hr <;> simp [hr]
  root := if_pos rfl
  closed r m hm := by
    rw [if_neg (by simp)] at hm
    exact absurd rfl hm

/-- Something is put into a directory, where no directory is. -/
def insert (t : FileTree π τ β) (p : List π) (n : π) (x : Node τ β) (hdir : t.lookup p = some .dir)
    (hleaf : t.lookup (p ++ [n]) ≠ some .dir) : FileTree π τ β where
  lookup r := if r = p ++ [n] then some x else t.lookup r
  keys := Insert.insert (p ++ [n]) t.keys
  mem_keys r := by
    rw [Finset.mem_insert, t.mem_keys]
    split_ifs with hr <;> simp [hr]
  root := by
    rw [if_neg (by simp)]
    exact t.root
  closed r m hm := by
    split_ifs at hm with hrm
    · obtain ⟨rfl, -⟩ := List.append_inj' hrm rfl
      rw [if_neg (by simp), hdir]
    · have hr := t.closed r m hm
      rw [if_neg, hr]
      rintro rfl
      exact hleaf hr

/-- What is below a path is taken away. -/
def remove (t : FileTree π τ β) (p : List π) (hp : p ≠ []) : FileTree π τ β where
  lookup r := if p <+: r then none else t.lookup r
  keys := t.keys.filter fun r => ¬ p <+: r
  mem_keys r := by
    rw [Finset.mem_filter, t.mem_keys]
    split_ifs with hr <;> simp [hr]
  root := by
    rw [if_neg (by simpa using hp)]
    exact t.root
  closed r m hm := by
    split_ifs at hm with hrm
    · exact absurd rfl hm
    · rw [if_neg fun hr => hrm (hr.trans (List.prefix_append r [m]))]
      exact t.closed r m hm

/-- What is below `p` replaces what is below `q ++ [n]`. -/
def rename (t : FileTree π τ β) (p q : List π) (n : π) (hdir : t.lookup q = some .dir)
    (hout : ¬ p <+: q ++ [n]) : FileTree π τ β where
  lookup r :=
    if q ++ [n] <+: r then t.lookup (p ++ r.drop (q ++ [n]).length)
    else if p <+: r then none
    else t.lookup r
  keys := (t.keys.filter fun r => ¬ q ++ [n] <+: r ∧ ¬ p <+: r) ∪
    (t.keys.filter fun r => p <+: r).image fun r => (q ++ [n]) ++ r.drop p.length
  mem_keys r := by
    rw [Finset.mem_union, Finset.mem_filter, Finset.mem_image, t.mem_keys]
    constructor
    · rintro (⟨hr, hq, hp⟩ | ⟨s, hs, rfl⟩)
      · rwa [if_neg hq, if_neg hp]
      · rw [Finset.mem_filter, t.mem_keys] at hs
        rw [if_pos (List.prefix_append _ _), List.drop_left, List.prefix_iff_eq_append.mp hs.2]
        exact hs.1
    · intro hr
      split_ifs at hr with hq hp
      · right
        refine ⟨p ++ r.drop (q ++ [n]).length, ?_, ?_⟩
        · rw [Finset.mem_filter, t.mem_keys]
          exact ⟨hr, List.prefix_append _ _⟩
        · rw [List.drop_left, List.prefix_iff_eq_append.mp hq]
      · exact absurd rfl hr
      · exact .inl ⟨hr, hq, hp⟩
  root := by
    have hp : ¬ p <+: [] := fun hp => hout (List.prefix_nil.mp hp ▸ List.nil_prefix)
    rw [if_neg (by simp), if_neg hp]
    exact t.root
  closed r m hm := by
    by_cases hq : q ++ [n] <+: r ++ [m]
    · rw [if_pos hq] at hm
      rcases List.prefix_concat_iff.mp hq with heq | hqr
      · obtain ⟨rfl, -⟩ := List.append_inj' heq rfl
        have hpq : ¬ p <+: q := fun h => hout (h.trans (List.prefix_append _ _))
        rw [if_neg (concat_not_prefix_self q n), if_neg hpq, hdir]
      · rw [if_pos hqr]
        rw [List.drop_append_of_le_length hqr.length_le, ← List.append_assoc] at hm
        exact t.closed _ m hm
    · rw [if_neg hq] at hm
      split_ifs at hm with hp
      · exact absurd rfl hm
      · rw [if_neg fun h => hq (h.trans (List.prefix_append _ _)),
          if_neg fun h => hp (h.trans (List.prefix_append _ _))]
        exact t.closed r m hm

theorem lookup_insert (hdir : t.lookup p = some .dir) (hleaf : t.lookup (p ++ [n]) ≠ some .dir) :
    (t.insert p n x hdir hleaf).lookup r = if r = p ++ [n] then some x else t.lookup r := rfl

theorem lookup_remove (hp : p ≠ []) :
    (t.remove p hp).lookup r = if p <+: r then none else t.lookup r := rfl

theorem lookup_rename (hdir : t.lookup q = some .dir) (hout : ¬ p <+: q ++ [n]) :
    (t.rename p q n hdir hout).lookup r =
      if q ++ [n] <+: r then t.lookup (p ++ r.drop (q ++ [n]).length)
      else if p <+: r then none
      else t.lookup r := rfl

end Operations

section Contents

/-- The content of a file. -/
def held : Option (Node τ β) → Multiset β
  | some (.file content) => {content}
  | _ => 0

/-- Everything stored, with multiplicities. -/
def contents (t : FileTree π τ β) : Multiset β := ∑ p ∈ t.keys, held (t.lookup p)

theorem held_of_notMem (h : p ∉ t.keys) : held (t.lookup p) = 0 := by
  rw [t.mem_keys, not_not] at h
  rw [h]
  rfl

theorem contents_eq_sum {s : Finset (List π)} (h : t.keys ⊆ s) :
    t.contents = ∑ p ∈ s, held (t.lookup p) :=
  Finset.sum_subset h fun _ _ hp => held_of_notMem hp

variable [DecidableEq π]

/-- What is stored below a path. -/
def contentsBelow (t : FileTree π τ β) (p : List π) : Multiset β :=
  ∑ r ∈ t.keys.filter fun r => p <+: r, held (t.lookup r)

/-- Where every file is still there, no content is missing. -/
theorem contents_le (h : ∀ p, held (t.lookup p) ≤ held (t'.lookup p)) : t.contents ≤ t'.contents := by
  have hleft : t.keys ⊆ t.keys ∪ t'.keys := Finset.subset_union_left
  have hright : t'.keys ⊆ t.keys ∪ t'.keys := Finset.subset_union_right
  rw [contents_eq_sum hleft, contents_eq_sum hright]
  exact Finset.sum_le_sum fun p _ => h p

theorem contents_congr (h : ∀ p, held (t'.lookup p) = held (t.lookup p)) :
    t'.contents = t.contents :=
  le_antisymm (contents_le fun p => (h p).le) (contents_le fun p => (h p).ge)

theorem contentsBelow_eq_sum {s : Finset (List π)} (h : t.keys ⊆ s) :
    t.contentsBelow p = ∑ r ∈ s with p <+: r, held (t.lookup r) := by
  apply Finset.sum_subset (Finset.filter_subset_filter _ h)
  intro r hr hr'
  rw [Finset.mem_filter, not_and'] at hr'
  exact held_of_notMem (hr' (Finset.mem_filter.mp hr).2)

/-- Where nothing is below a path but itself. -/
theorem contentsBelow_eq_held (h : ∀ r ∈ t.keys, p <+: r → r = p) :
    t.contentsBelow p = held (t.lookup p) := by
  rw [contentsBelow, ← Finset.sum_singleton (fun r => held (t.lookup r)) p]
  apply Finset.sum_subset
  · intro r hr
    rw [Finset.mem_filter] at hr
    exact Finset.mem_singleton.mpr (h r hr.1 hr.2)
  · intro r hr hout
    rw [Finset.mem_singleton] at hr
    apply held_of_notMem
    rintro hkey
    exact hout (Finset.mem_filter.mpr ⟨hkey, hr ▸ List.prefix_rfl⟩)

theorem contents_remove (hp : p ≠ []) :
    (t.remove p hp).contents + t.contentsBelow p = t.contents := by
  have hkept : (t.remove p hp).contents = ∑ r ∈ t.keys with ¬ p <+: r, held (t.lookup r) := by
    apply Finset.sum_congr rfl
    intro r hr
    rw [lookup_remove, if_neg (Finset.mem_filter.mp hr).2]
  rw [hkept, add_comm, contentsBelow, Finset.sum_filter_add_sum_filter_not, contents]

/-- Only what has been replaced is missing. -/
theorem contents_rename (hdir : t.lookup q = some .dir) (hout : ¬ p <+: q ++ [n])
    (hin : ¬ q ++ [n] <+: p) :
    (t.rename p q n hdir hout).contents + t.contentsBelow (q ++ [n]) = t.contents := by
  set kept := t.keys.filter fun r => ¬ q ++ [n] <+: r ∧ ¬ p <+: r with hkept
  set moved := t.keys.filter fun r => p <+: r with hmoved
  -- the two parts of the new tree
  have hdisjoint : Disjoint kept (moved.image fun r => (q ++ [n]) ++ r.drop p.length) := by
    rw [Finset.disjoint_left]
    intro r hr himage
    obtain ⟨s, -, rfl⟩ := Finset.mem_image.mp himage
    exact (Finset.mem_filter.mp hr).2.1 (List.prefix_append _ _)
  have hsum : (t.rename p q n hdir hout).contents =
      ∑ r ∈ kept, held (t.lookup r) + ∑ r ∈ moved, held (t.lookup r) := by
    change ∑ r ∈ kept ∪ moved.image _, _ = _
    rw [Finset.sum_union hdisjoint, Finset.sum_image]
    · congr 1
      · apply Finset.sum_congr rfl
        intro r hr
        obtain ⟨-, hq, hp⟩ := Finset.mem_filter.mp hr
        rw [lookup_rename, if_neg hq, if_neg hp]
      · apply Finset.sum_congr rfl
        intro r hr
        rw [lookup_rename, if_pos (List.prefix_append _ _), List.drop_left,
          List.prefix_iff_eq_append.mp (Finset.mem_filter.mp hr).2]
    · intro r hr s hs heq
      have hdrop := List.append_cancel_left heq
      rw [← List.prefix_iff_eq_append.mp (Finset.mem_filter.mp hr).2, hdrop,
        List.prefix_iff_eq_append.mp (Finset.mem_filter.mp hs).2]
  -- the old tree, first by what is moved, then by what is replaced
  have hother : (t.keys.filter fun r => ¬ p <+: r).filter (fun r => q ++ [n] <+: r) =
      t.keys.filter fun r => q ++ [n] <+: r := by
    rw [Finset.filter_filter]
    apply Finset.filter_congr
    intro r _
    refine and_iff_right_of_imp fun hq hp => ?_
    rcases List.prefix_or_prefix_of_prefix hp hq with h | h
    · exact hout h
    · exact hin h
  have hrest : (t.keys.filter fun r => ¬ p <+: r).filter (fun r => ¬ q ++ [n] <+: r) = kept := by
    rw [Finset.filter_filter, hkept]
    exact Finset.filter_congr fun r _ => and_comm
  have hold : t.contents = ∑ r ∈ moved, held (t.lookup r) +
      (t.contentsBelow (q ++ [n]) + ∑ r ∈ kept, held (t.lookup r)) := by
    rw [contents, ← Finset.sum_filter_add_sum_filter_not t.keys fun r => p <+: r, ← hmoved,
      ← Finset.sum_filter_add_sum_filter_not (t.keys.filter fun r => ¬ p <+: r)
        fun r => q ++ [n] <+: r, hother, hrest]
    rfl
  rw [hsum, hold, add_right_comm, add_comm, add_comm (t.contentsBelow _)]

end Contents

end FileTree
