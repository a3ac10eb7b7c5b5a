import Mathlib.Algebra.Order.Ring.Rat
import Mathlib.Order.Interval.Set.Basic
import Mathlib.Tactic.NormNum
import SmartMedia.Library.Blend
import SmartMedia.Library.PythonRegex

/-!
# Scoring

`ScoringEngine` of `app/services/scoring/engine.py`, over exact rationals. What its calculators
make of a title and a date, and how numbers are rounded, are parameters.
-/
namespace SmartMedia.Search
open Blend PythonRegex

/-- The weights that the score is computed with; those of the confidence and of the quality are
not read. -/
structure ScoringWeights where
  popularity : ℚ := 1 / 10
  freshness : ℚ := 1 / 20

structure Calculators where
  extractTags : Text → List Text
  confidence : Text → Text → List Text → ℚ
  quality : Text → List Text → ℚ
  /-- Of a publication date, if there is one. -/
  freshness : Option Text → ℚ
  /-- `round(x, 3)` -/
  round : ℚ → ℚ

structure ScoreDetail where
  score : ℚ
  confidence : ℚ
  quality : ℚ
  popularity : ℚ
  freshness : ℚ
  alpha : ℚ
  prGate : ℚ
  tags : List Text

def calculateAlpha (confidence : ℚ) : ℚ :=
  if confidence < 1 / 2 then 7 / 10
  else if confidence < 4 / 5 then 11 / 20
  else 2 / 5

def calculatePrGate (confidence : ℚ) : ℚ :=
  if 3 / 5 ≤ confidence then 1
  else if 2 / 5 ≤ confidence then 3 / 10
  else 0

/-- The score before it is rounded. -/
def combinedScore (weights : ScoringWeights) (confidence quality popularity freshness : ℚ) : ℚ :=
  let alpha := calculateAlpha confidence
  let prGate := calculatePrGate confidence
  let score := alpha * confidence + (1 - alpha) * quality +
    prGate * (weights.popularity * popularity + weights.freshness * freshness)
  if confidence < 2 / 25 then confidence else score

/-- `ScoringEngine.score`. -/
def score (calculators : Calculators) (weights : ScoringWeights) (query title : Text)
    (pubDate : Option Text) : ScoreDetail :=
  let tags := calculators.extractTags title
  let confidence := calculators.confidence query title tags
  let quality := calculators.quality title tags
  -- the upstream has no numbers of views, so `calculate(0)`
  let popularity := 0
  let freshness := calculators.freshness pubDate
  { score := calculators.round (combinedScore weights confidence quality popularity freshness)
    confidence := calculators.round confidence
    quality := calculators.round quality
    popularity := calculators.round popularity
    freshness := calculators.round freshness
    alpha := calculators.round (calculateAlpha confidence)
    prGate := calculatePrGate confidence
    tags := tags }

section Weight

/-- The weight of the confidence against the quality; below the cut-off nothing else counts. -/
def confidenceWeight (confidence : ℚ) : ℚ :=
  if confidence < 2 / 25 then 1 else calculateAlpha confidence

/-- The confidences at which its weight falls. -/
def thresholds : List ℚ := [2 / 25, 1 / 2, 4 / 5]

theorem confidenceWeight_pos (c : ℚ) : 0 < confidenceWeight c := by
  unfold confidenceWeight calculateAlpha
  split_ifs <;> norm_num

theorem confidenceWeight_antitone {c d : ℚ} (h : c ≤ d) :
    confidenceWeight d ≤ confidenceWeight c := by
  unfold confidenceWeight calculateAlpha
  split_ifs <;> linarith

/-- Between confidences of different weight there is a threshold. -/
theorem exists_threshold {c d : ℚ} (h : c ≤ d) (hne : confidenceWeight d ≠ confidenceWeight c) :
    ∃ t ∈ thresholds, c < t ∧ t ≤ d := by
  by_contra hnone
  have hsame : ∀ t ∈ thresholds, d < t ↔ c < t := by
    intro t ht
    refine ⟨h.trans_lt, fun hc => ?_⟩
    by_contra hd
    exact hnone ⟨t, ht, hc, not_lt.mp hd⟩
  refine hne ?_
  unfold confidenceWeight calculateAlpha
  simp only [hsame (2 / 25) (by simp [thresholds]), hsame (1 / 2) (by simp [thresholds]),
    hsame (4 / 5) (by simp [thresholds])]

theorem calculatePrGate_mono {c d : ℚ} (h : c ≤ d) : calculatePrGate c ≤ calculatePrGate d := by
  unfold calculatePrGate
  split_ifs <;> linarith

/-- Below a threshold the weight is greater, and the gate is as open as at the threshold. -/
theorem exists_below {t : ℚ} (ht : t ∈ thresholds) : ∃ low weight,
    low < t ∧ confidenceWeight t < weight ∧ ∀ c, low ≤ c → c < t →
      confidenceWeight c = weight ∧ calculatePrGate c = calculatePrGate t := by
  have hcases : t = 2 / 25 ∨ t = 1 / 2 ∨ t = 4 / 5 := by simpa [thresholds] using ht
  rcases hcases with rfl | rfl | rfl
  · refine ⟨0, 1, by norm_num, by norm_num [confidenceWeight, calculateAlpha], fun c _ hc => ⟨?_, ?_⟩⟩
    · rw [confidenceWeight, if_pos hc]
    · rw [calculatePrGate, if_neg (by linarith), if_neg (by linarith)]
      norm_num [calculatePrGate]
  · refine ⟨2 / 5, 7 / 10, by norm_num, by norm_num [confidenceWeight, calculateAlpha],
      fun c hlow hc => ⟨?_, ?_⟩⟩
    · rw [confidenceWeight, if_neg (by linarith), calculateAlpha, if_pos hc]
    · rw [calculatePrGate, if_neg (by linarith), if_pos hlow]
      norm_num [calculatePrGate]
  · refine ⟨3 / 5, 11 / 20, by norm_num, by norm_num [confidenceWeight, calculateAlpha],
      fun c hlow hc => ⟨?_, ?_⟩⟩
    · rw [confidenceWeight, if_neg (by linarith), calculateAlpha, if_neg (by linarith), if_pos hc]
    · rw [calculatePrGate, if_pos hlow]
      norm_num [calculatePrGate]

end Weight

section Monotone
variable (quality popularity freshness : ℚ)

/-- The combined score as a blend. -/
theorem combinedScore_eq (weights : ScoringWeights) (c : ℚ) :
    combinedScore weights c quality popularity freshness = blend (confidenceWeight c) c quality +
      calculatePrGate c * (weights.popularity * popularity + weights.freshness * freshness) := by
  unfold combinedScore confidenceWeight
  split_ifs with hlow
  · -- the gate is closed below the cut-off
    have hgate : calculatePrGate c = 0 := by
      unfold calculatePrGate
      rw [if_neg (by linarith), if_neg (by linarith)]
    rw [hgate, zero_mul, add_zero, blend_one]
  · rfl

/-- The confidences from `low` to `high` over which the score does not fall. -/
theorem combinedScore_monotoneOn_iff {low high : ℚ} (hpopularity : 0 ≤ popularity)
    (hfreshness : 0 ≤ freshness) :
    MonotoneOn (fun confidence => combinedScore {} confidence quality popularity freshness)
      (Set.Icc low high) ↔ ∀ t ∈ thresholds, low < t → t ≤ high → t ≤ quality := by
  have hothers : 0 ≤ (1 / 10 : ℚ) * popularity + 1 / 20 * freshness := by linarith
  simp only [MonotoneOn, combinedScore_eq]
  constructor
  · intro hmono t ht hlow hhigh
    obtain ⟨least, weight, hleast, hweight, hbelow⟩ := exists_below ht
    -- the scores just below the threshold come as near as one likes to what it takes away
    have hblend : blend weight t quality ≤ blend (confidenceWeight t) t quality := by
      refine blend_le_of_forall_lt ((confidenceWeight_pos t).trans hweight) (max_lt hlow hleast)
        fun c hc hct => ?_
      obtain ⟨hsame, hgate⟩ := hbelow c ((le_max_right low least).trans hc) hct
      have hle := hmono ⟨(le_max_left low least).trans hc, (hct.le.trans hhigh)⟩ ⟨hlow.le, hhigh⟩
        hct.le
      rw [hsame, hgate] at hle
      exact le_of_add_le_add_right hle
    exact (blend_le_blend_iff hweight).mp hblend
  · intro hthresholds c hc d hd hcd
    refine add_le_add ?_ (mul_le_mul_of_nonneg_right (calculatePrGate_mono hcd) hothers)
    refine blend_le_blend (confidenceWeight_pos d).le (confidenceWeight_antitone hcd) hcd ?_
    by_cases hsame : confidenceWeight d = confidenceWeight c
    · exact .inl hsame
    · obtain ⟨t, ht, hct, htd⟩ := exists_threshold hcd hsame
      exact .inr (hct.le.trans
        (hthresholds t ht (hc.1.trans_lt hct) (htd.trans hd.2)))

/-- Of a poor quality a match just below a threshold scores more than one at it. -/
theorem combinedScore_falls : ¬ ∀ quality popularity freshness : ℚ, quality ∈ Set.Icc 0 1 →
    popularity ∈ Set.Icc 0 1 → freshness ∈ Set.Icc 0 1 →
    MonotoneOn (fun confidence => combinedScore {} confidence quality popularity freshness)
      (Set.Icc 0 1) := by
  intro h
  have hle := h 0 0 0 (by norm_num) (by norm_num) (by norm_num)
    (a := 3 / 4) (b := 4 / 5) (by norm_num) (by norm_num) (by norm_num)
  norm_num [combinedScore, calculateAlpha, calculatePrGate] at hle

/-- The score grows with the confidence exactly if the quality reaches the last threshold, and
from one confidence to another exactly if it reaches those that are passed. -/
theorem betterMatches_score_iff (hpopularity : 0 ≤ popularity) (hfreshness : 0 ≤ freshness) :
    (MonotoneOn (fun confidence => combinedScore {} confidence quality popularity freshness)
        (Set.Icc 0 1) ↔ 4 / 5 ≤ quality) ∧
      ∀ low high,
        MonotoneOn (fun confidence => combinedScore {} confidence quality popularity freshness)
          (Set.Icc low high) ↔
        ∀ t ∈ [2 / 25, 1 / 2, 4 / 5], low < t → t ≤ high → t ≤ quality := by
  refine ⟨?_, fun low high =>
    combinedScore_monotoneOn_iff quality popularity freshness hpopularity hfreshness⟩
  rw [combinedScore_monotoneOn_iff quality popularity freshness hpopularity hfreshness]
  constructor
  · intro h
    exact h (4 / 5) (by simp [thresholds]) (by norm_num) (by norm_num)
  · intro hquality t ht _ _
    have hcases : t = 2 / 25 ∨ t = 1 / 2 ∨ t = 4 / 5 := by simpa [thresholds] using ht
    rcases hcases with rfl | rfl | rfl
    · linarith
    · linarith
    · exact hquality

theorem bestQuality_grows :
    MonotoneOn (fun confidence => combinedScore {} confidence 1 0 (1 / 2)) (Set.Icc 0 1) :=
  (betterMatches_score_iff 1 0 (1 / 2) (by norm_num) (by norm_num)).1.mpr (by norm_num)

end Monotone

end SmartMedia.Search
