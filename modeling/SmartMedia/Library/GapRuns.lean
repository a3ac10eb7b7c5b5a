import Mathlib.Algebra.Order.Group.Defs
import Mathlib.Data.List.Chain
import Mathlib.Data.List.Infix
import Mathlib.Tactic.Common

/-!
# Runs of times with small gaps

Times are listed with the latest first. A run is a part of the list in which no gap is longer than
`T`; `runLength` counts the run at the head.
-/
namespace GapRuns
variable {α : Type*} [LinearOrder α] {f g : α} {earlier times : List α}

theorem head_le_of_suffix (hsorted : (g :: times).Pairwise (· ≥ ·))
    (h : (f :: earlier) <:+ g :: times) : f ≤ g := by
  rcases List.mem_cons.mp (h.mem List.mem_cons_self) with rfl | hmem
  · exact le_rfl
  · exact List.rel_of_pairwise_cons hsorted hmem

variable [AddCommGroup α]

/-- No gap between neighbours is longer than `T`. -/
def IsRun (T : α) (run : List α) : Prop := run.IsChain fun later earlier => later - earlier ≤ T

/-- How many of the latest times form one run. -/
def runLength (T : α) : List α → ℕ
  | [] => 0
  | [_] => 1
  | f :: g :: earlier => if f - g ≤ T then runLength T (g :: earlier) + 1 else 1

/-- Some time that is less than `T` ago ended a run of `n` or more. -/
def Sticky (n : ℕ) (T : α) (times : List α) (t : α) : Prop :=
  ∃ f earlier, (f :: earlier) <:+: times ∧ IsRun T (f :: earlier) ∧ n ≤ (f :: earlier).length ∧
    t < f + T

variable {n : ℕ} {T t : α} {run : List α}

theorem runLength_cons_of_gap (h : ∀ g ∈ times.head?, T < f - g) : runLength T (f :: times) = 1 := by
  cases times with
  | nil => rfl
  | cons g earlier => rw [runLength, if_neg (not_le.mpr (h g rfl))]

theorem runLength_cons_of_close (h : f - g ≤ T) :
    runLength T (f :: g :: earlier) = runLength T (g :: earlier) + 1 := by
  rw [runLength, if_pos h]

theorem runLength_pos (f : α) (earlier : List α) : 1 ≤ runLength T (f :: earlier) := by
  cases earlier with
  | nil => exact le_rfl
  | cons g earlier =>
      rw [runLength]
      split_ifs with h
      · exact Nat.le_add_left 1 _
      · exact le_rfl

/-- A run at the head is counted. -/
theorem IsRun.length_le (h : IsRun T run) (hhead : run <+: times) :
    run.length ≤ runLength T times := by
  induction run generalizing times with
  | nil => exact Nat.zero_le _
  | cons f run ih =>
      obtain ⟨rest, rfl⟩ := hhead
      cases run with
      | nil => exact runLength_pos f rest
      | cons g run =>
          rw [IsRun, List.isChain_cons_cons] at h
          rw [List.cons_append, List.cons_append, runLength_cons_of_close h.1, List.length_cons]
          exact Nat.succ_le_succ (ih h.2 (List.prefix_append _ _))

/-- What is counted is a run. -/
theorem isRun_take (times : List α) : IsRun T (times.take (runLength T times)) ∧
    (times.take (runLength T times)).length = runLength T times := by
  induction times with
  | nil => exact ⟨List.isChain_nil, rfl⟩
  | cons f times ih =>
      cases times with
      | nil => exact ⟨List.isChain_singleton f, rfl⟩
      | cons g earlier =>
          rw [runLength]
          split_ifs with hgap
          · rw [List.take_succ_cons, List.length_cons]
            refine ⟨?_, congrArg (· + 1) ih.2⟩
            rw [IsRun, List.isChain_cons]
            refine ⟨?_, ih.1⟩
            intro later hlater
            rw [List.head?_take] at hlater
            split_ifs at hlater with hzero
            · cases hlater
            · obtain rfl := Option.some.inj hlater
              exact hgap
          · exact ⟨List.isChain_singleton f, rfl⟩

/-- The definition in terms of the count. -/
theorem sticky_iff (hn : 1 ≤ n) : Sticky n T times t ↔
    ∃ f earlier, (f :: earlier) <:+ times ∧ n ≤ runLength T (f :: earlier) ∧ t < f + T := by
  constructor
  · rintro ⟨f, run, ⟨before, rest, rfl⟩, hrun, hlength, hlast⟩
    refine ⟨f, run ++ rest, ?_, ?_, hlast⟩
    · rw [List.append_assoc]
      exact List.suffix_append _ _
    · exact hlength.trans (hrun.length_le (List.prefix_append (f :: run) rest))
  · rintro ⟨f, earlier, hsuffix, hlength, hlast⟩
    obtain ⟨hrun, htake⟩ := isRun_take (T := T) (f :: earlier)
    have hpositive := hn.trans hlength
    obtain ⟨k, hk⟩ := Nat.exists_eq_add_of_le' hpositive
    rw [hk, List.take_succ_cons] at hrun htake
    refine ⟨f, earlier.take k, ?_, hrun, ?_, hlast⟩
    · have hfront := List.take_prefix (k + 1) (f :: earlier)
      rw [List.take_succ_cons] at hfront
      exact hfront.isInfix.trans hsuffix.isInfix
    · rw [htake, ← hk]
      exact hlength

/-- Once every time is `T` ago, nothing is sticky. -/
theorem not_sticky_of_over (h : ∀ f ∈ times, f + T ≤ t) : ¬ Sticky n T times t := by
  rintro ⟨f, earlier, hrun, -, -, hlast⟩
  exact absurd hlast (not_lt.mpr (h f (hrun.mem List.mem_cons_self)))

section Sorted
variable [IsOrderedAddMonoid α]

/-- The latest run is the longest of those not yet over. -/
theorem runLength_of_suffix (hsorted : (g :: times).Pairwise (· ≥ ·))
    (h : (f :: earlier) <:+ g :: times) :
    runLength T (f :: earlier) ≤ runLength T (g :: times) ∨ f + T < g := by
  induction times generalizing g with
  | nil =>
      rcases List.suffix_cons_iff.mp h with heq | hnil
      · exact .inl (heq ▸ le_rfl)
      · exact absurd (List.suffix_nil.mp hnil) (List.cons_ne_nil f earlier)
  | cons g' times ih =>
      rcases List.suffix_cons_iff.mp h with heq | htail
      · exact .inl (heq ▸ le_rfl)
      · rw [List.pairwise_cons] at hsorted
        have hle : g' ≤ g := hsorted.1 g' List.mem_cons_self
        rcases ih hsorted.2 htail with hlength | hover
        · rw [runLength]
          split_ifs with hgap
          · exact .inl (hlength.trans (Nat.le_succ _))
          · right
            have hearlier := head_le_of_suffix hsorted.2 htail
            rw [not_le, lt_sub_iff_add_lt'] at hgap
            exact lt_of_le_of_lt (add_le_add_left hearlier T) hgap
        · exact .inr (hover.trans_le hle)

/-- Only the latest run can make a later moment sticky. -/
theorem sticky_cons_iff (hn : 1 ≤ n) (hsorted : (g :: times).Pairwise (· ≥ ·)) (ht : g ≤ t) :
    Sticky n T (g :: times) t ↔ n ≤ runLength T (g :: times) ∧ t < g + T := by
  rw [sticky_iff hn]
  constructor
  · rintro ⟨f, earlier, hsuffix, hlength, hlast⟩
    have hlater : t < g + T :=
      hlast.trans_le (add_le_add_left (head_le_of_suffix hsorted hsuffix) T)
    rcases runLength_of_suffix (T := T) hsorted hsuffix with hle | hover
    · exact ⟨hlength.trans hle, hlater⟩
    · exact absurd (hlast.trans hover) (not_lt.mpr ht)
  · rintro ⟨hlength, hlast⟩
    exact ⟨g, times, List.suffix_rfl, hlength, hlast⟩

end Sorted

end GapRuns
