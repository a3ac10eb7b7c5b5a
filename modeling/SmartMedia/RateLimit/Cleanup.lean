import SmartMedia.RateLimit.RetryAfter

/-!
# What the clean-up of the limiter leaves

The clean-up drops a bucket only when its list is empty, and lists are pruned only by checks of their
bucket, which then record the request or find the list full. So dropping a bucket is not seen, but for
two readings of the clock with the end of a block between them; and a bucket that is idle stays.
-/
namespace SmartMedia.RateLimit

/-- The interval is over. -/
def RateLimiter.CleanupDue (limiter : RateLimiter) (now : ℚ) : Prop :=
  limiter.cleanupInterval ≤ now - limiter.lastCleanup

instance (limiter : RateLimiter) (now : ℚ) : Decidable (limiter.CleanupDue now) :=
  inferInstanceAs (Decidable (_ ≤ _))

theorem RateLimiter.cleanup_due {limiter : RateLimiter} {now : ℚ} (h : limiter.CleanupDue now)
    (clientId : String) :
    (limiter.cleanupIfNeeded now).clientStates clientId =
      (limiter.clientStates clientId).filter fun state =>
        !(state.blockedUntil < now && state.requests.isEmpty) := by
  rw [cleanupIfNeeded, if_neg (not_lt.mpr h)]

theorem RateLimiter.cleanup_not_due {limiter : RateLimiter} {now : ℚ} (h : ¬ limiter.CleanupDue now) :
    limiter.cleanupIfNeeded now = limiter := if_pos (not_le.mp h)

namespace LimiterRun
variable {s s' : LimiterRun} {a : Check} {history : List Check}

section Unseen

/-- A check does not read the clock before the end of its block and clean up after it, when nothing is
recorded. -/
def Timely (s : LimiterRun) (a : Check) : Prop :=
  s.limiter.CleanupDue a.cleanupNow → (s.limiter.state a.clientId).requests = [] →
    ¬(a.now < (s.limiter.state a.clientId).blockedUntil ∧
      (s.limiter.state a.clientId).blockedUntil < a.cleanupNow)

instance (s : LimiterRun) (a : Check) : Decidable (s.Timely a) :=
  inferInstanceAs (Decidable (_ → _ → ¬(_ ∧ _)))

/-- What the checks of a run return. -/
def verdicts : LimiterRun → List Check → List Verdict
  | _, [] => []
  | s, a :: history => s.verdict a :: verdicts (s.after a) history

/-- What they return when no bucket is ever dropped. -/
def keptVerdicts : (String → ClientState) → List Check → List Verdict
  | _, [] => []
  | states, a :: history =>
      let (state, verdict) := (states a.clientId).check a.config a.now
      verdict :: keptVerdicts (Function.update states a.clientId state) history

/-- Two states of a bucket that no check tells apart from a time on. -/
structure Alike (clock : ℚ) (state kept : ClientState) : Prop where
  requests : state.requests = kept.requests
  block : state.blockedUntil = kept.blockedUntil ∨ state.blockedUntil ≤ clock ∧ kept.blockedUntil ≤ clock

theorem Alike.mono {clock now : ℚ} {state kept : ClientState} (h : Alike clock state kept)
    (hnow : clock ≤ now) : Alike now state kept :=
  ⟨h.requests, h.block.imp_right fun hblock => ⟨hblock.1.trans hnow, hblock.2.trans hnow⟩⟩

/-- A check answers the same, and leaves states that are alike. -/
theorem Alike.check {now later : ℚ} {state kept : ClientState} (h : Alike now state kept)
    (hlater : now ≤ later) (config : RateLimitConfig) :
    (state.check config now).2 = (kept.check config now).2 ∧
      Alike later (state.check config now).1 (kept.check config now).1 := by
  have hpruned : state.pruned config now = kept.pruned config now := by
    rw [ClientState.pruned, ClientState.pruned, h.requests]
  by_cases hblocked : now < state.blockedUntil
  · have hsame : state.blockedUntil = kept.blockedUntil :=
      h.block.resolve_right fun hblock => absurd hblock.1 (not_le.mpr hblocked)
    rw [ClientState.check, ClientState.check, if_pos hblocked, if_pos (hsame ▸ hblocked), hsame]
    exact ⟨rfl, h.requests, .inl hsame⟩
  · have hkept : ¬ now < kept.blockedUntil := by
      rcases h.block with hsame | hblock
      · rwa [← hsame]
      · exact not_lt.mpr hblock.2
    rw [ClientState.check, ClientState.check, if_neg hblocked, if_neg hkept, hpruned]
    dsimp only
    split_ifs
    · exact ⟨rfl, rfl, .inl rfl⟩
    · exact ⟨rfl, rfl, .inr ⟨(not_lt.mp hblocked).trans hlater, (not_lt.mp hkept).trans hlater⟩⟩

/-- Every bucket is like the one that was never dropped. -/
def AllAlike (s : LimiterRun) (states : String → ClientState) : Prop :=
  ∀ clientId, Alike s.clock (s.limiter.state clientId) (states clientId)

theorem alike_found {states : String → ClientState} (h : s.AllAlike states) (hclock : 0 ≤ s.clock)
    (htime : s.clock ≤ a.now ∧ a.now ≤ a.cleanupNow) (htimely : s.Timely a) :
    Alike a.now (s.found a) (states a.clientId) := by
  have hown := h a.clientId
  by_cases hdue : s.limiter.CleanupDue a.cleanupNow
  · rcases s.limiter.cleanup_state a.cleanupNow a.clientId with hsame | ⟨hempty, hnone, hover⟩
    · rw [found, hsame]
      exact hown.mono htime.1
    · have hended : (s.limiter.state a.clientId).blockedUntil ≤ a.now := by
        by_contra hlate
        exact htimely hdue hnone ⟨not_le.mp hlate, hover⟩
      rw [found, hempty]
      refine ⟨hnone.symm.trans hown.requests, .inr ⟨hclock.trans htime.1, ?_⟩⟩
      rcases hown.block with hblock | hblock
      · rwa [← hblock]
      · exact hblock.2.trans htime.1
  · rw [found, RateLimiter.cleanup_not_due hdue]
    exact hown.mono htime.1

theorem allAlike_after {states : String → ClientState} (h : s.AllAlike states) (hclock : 0 ≤ s.clock)
    (htime : s.clock ≤ a.now ∧ a.now ≤ a.cleanupNow) (htimely : s.Timely a) :
    (s.after a).AllAlike
      (Function.update states a.clientId ((states a.clientId).check a.config a.now).1) := by
  intro clientId
  have hfinal : (s.after a).clock = a.cleanupNow := rfl
  rw [hfinal]
  by_cases hown : clientId = a.clientId
  · rw [hown, Function.update_self, after, RateLimiter.state]
    simp only [Function.update_self, Option.getD_some]
    exact ((alike_found h hclock htime htimely).check htime.2 a.config).2
  · rw [Function.update_of_ne hown]
    have hstate : (s.after a).limiter.state clientId =
        (s.limiter.cleanupIfNeeded a.cleanupNow).state clientId := by
      rw [after, RateLimiter.state, RateLimiter.state]
      simp only [Function.update_of_ne hown]
    have hlater := htime.1.trans htime.2
    have hother := (h clientId).mono hlater
    rw [hstate]
    rcases s.limiter.cleanup_state a.cleanupNow clientId with hsame | ⟨hempty, hnone, hover⟩
    · rw [hsame]
      exact hother
    · rw [hempty]
      refine ⟨hnone.symm.trans hother.requests, .inr ⟨hclock.trans hlater, ?_⟩⟩
      rcases hother.block with hblock | hblock
      · rw [← hblock]
        exact hover.le
      · exact hblock.2

/-- So no check of a run tells whether a bucket has been dropped. -/
theorem verdicts_eq {states : String → ClientState} (h : s.AllAlike states) (hclock : 0 ≤ s.clock)
    (hrun : PartialRun.exec step s history = some s') (htimely : PartialRun.Along step Timely s history) :
    verdicts s history = keptVerdicts states history := by
  induction history generalizing s states with
  | nil => rfl
  | cons a history ih =>
      obtain ⟨u, hstep, hrest⟩ := PartialRun.exec_cons_eq_some.mp hrun
      obtain ⟨htime, rfl⟩ := step_eq_some.mp hstep
      have hverdict : s.verdict a = ((states a.clientId).check a.config a.now).2 :=
        ((alike_found h hclock htime htimely.1).check htime.2 a.config).1
      rw [verdicts, keptVerdicts, hverdict,
        ih (allAlike_after h hclock htime htimely.1) (hclock.trans (htime.1.trans htime.2)) hrest
          (htimely.2 _ hstep)]

end Unseen

section Kept

/-- The block of a bucket has ended, and what is recorded is older than every window it was checked
with. -/
def Idle (history : List Check) (now : ℚ) (clientId : String) (state : ClientState) : Prop :=
  state.blockedUntil ≤ now ∧
    ∀ τ ∈ state.requests, ∀ c ∈ history, c.clientId = clientId → τ ≤ now - c.config.seconds

instance (history : List Check) (now : ℚ) (clientId : String) (state : ClientState) :
    Decidable (Idle history now clientId state) :=
  inferInstanceAs (Decidable (_ ∧ ∀ τ ∈ state.requests, ∀ c ∈ history, _))

/-- The clean-up of a check leaves no idle bucket. -/
def CleanedUp (s : LimiterRun) (history : List Check) (a : Check) : Prop :=
  ∀ clientId state, (s.limiter.cleanupIfNeeded a.cleanupNow).clientStates clientId = some state →
    ¬ Idle history a.cleanupNow clientId state

/-- Every idle bucket has an empty list. -/
def IdleEmpty (s : LimiterRun) (history : List Check) (a : Check) : Prop :=
  ∀ clientId state, s.limiter.clientStates clientId = some state →
    Idle history a.cleanupNow clientId state →
      state.requests = [] ∧ state.blockedUntil < a.cleanupNow

theorem cleanedUp_iff (hdue : s.limiter.CleanupDue a.cleanupNow) :
    s.CleanedUp history a ↔ s.IdleEmpty history a := by
  have hkept : ∀ clientId state,
      (s.limiter.cleanupIfNeeded a.cleanupNow).clientStates clientId = some state ↔
        s.limiter.clientStates clientId = some state ∧
          ¬(state.requests = [] ∧ state.blockedUntil < a.cleanupNow) := by
    intro clientId state
    rw [RateLimiter.cleanup_due hdue, Option.filter_eq_some_iff, Bool.not_eq_true', Bool.and_eq_false_iff,
      decide_eq_false_iff_not, List.isEmpty_eq_false_iff, not_and_or, or_comm]
  constructor
  · intro h clientId state hstate hidle
    by_contra hno
    exact h clientId state ((hkept clientId state).mpr ⟨hstate, hno⟩) hidle
  · intro h clientId state hstate hidle
    obtain ⟨hbefore, hno⟩ := (hkept clientId state).mp hstate
    exact hno (h clientId state hbefore hidle)

/-- Something is recorded in every bucket. -/
def Recorded (s : LimiterRun) : Prop :=
  ∀ clientId state, s.limiter.clientStates clientId = some state → state.requests ≠ []

theorem Recorded.cleanup (h : s.Recorded) (now : ℚ) :
    (s.limiter.cleanupIfNeeded now).clientStates = s.limiter.clientStates := by
  funext clientId
  by_cases hdue : s.limiter.CleanupDue now
  · rw [RateLimiter.cleanup_due hdue]
    cases hstate : s.limiter.clientStates clientId with
    | none => rfl
    | some state =>
        rw [Option.filter_some_pos]
        rw [Bool.not_eq_true', Bool.and_eq_false_iff, List.isEmpty_eq_false_iff]
        exact .inr (h clientId state hstate)
  · rw [RateLimiter.cleanup_not_due hdue]

/-- With a limit of a request at least, a check finds something recorded or records its request. -/
theorem check_recorded {state : ClientState} {config : RateLimitConfig} {now : ℚ}
    (hrequests : 1 ≤ config.requests) (h : now < state.blockedUntil → state.requests ≠ []) :
    (state.check config now).1.requests ≠ [] := by
  rw [ClientState.check]
  by_cases hblocked : now < state.blockedUntil
  · rw [if_pos hblocked]
    exact h hblocked
  · rw [if_neg hblocked]
    by_cases hmany : config.requests ≤ (state.pruned config now).length
    · dsimp only
      rw [if_pos hmany]
      rintro hnil
      dsimp only at hnil
      rw [hnil, List.length_nil] at hmany
      omega
    · dsimp only
      rw [if_neg hmany]
      exact List.append_ne_nil_of_right_ne_nil _ (List.cons_ne_nil now [])

theorem Recorded.after (h : s.Recorded) (hclock : 0 ≤ s.clock)
    (htime : s.clock ≤ a.now ∧ a.now ≤ a.cleanupNow) (hrequests : 1 ≤ a.config.requests) :
    (s.after a).Recorded := by
  have hcleanup := h.cleanup a.cleanupNow
  intro clientId state hstate
  rw [LimiterRun.after] at hstate
  simp only [Function.update_apply] at hstate
  split_ifs at hstate with hown
  · obtain rfl := Option.some.inj hstate
    apply check_recorded hrequests
    intro hblocked
    rw [found, RateLimiter.state, hcleanup] at hblocked ⊢
    cases hbucket : s.limiter.clientStates a.clientId with
    | none =>
        rw [hbucket] at hblocked
        exact absurd hblocked (not_lt.mpr (hclock.trans htime.1))
    | some state => exact h a.clientId state hbucket
  · rw [hcleanup] at hstate
    exact h clientId state hstate

/-- So every bucket that was ever checked stays. -/
theorem exec_recorded (h : s.Recorded) (hclock : 0 ≤ s.clock)
    (hrun : PartialRun.exec step s history = some s')
    (hrequests : ∀ c ∈ history, 1 ≤ c.config.requests) :
    s'.Recorded ∧ ∀ clientId, s'.limiter.clientStates clientId ≠ none ↔
      s.limiter.clientStates clientId ≠ none ∨ ∃ c ∈ history, c.clientId = clientId := by
  induction history generalizing s with
  | nil =>
      obtain rfl := Option.some_inj.mp hrun
      exact ⟨h, fun clientId => by simp⟩
  | cons a history ih =>
      obtain ⟨u, hstep, hrest⟩ := PartialRun.exec_cons_eq_some.mp hrun
      obtain ⟨htime, rfl⟩ := step_eq_some.mp hstep
      rw [List.forall_mem_cons] at hrequests
      obtain ⟨hrecorded, hkeys⟩ := ih (h.after hclock htime hrequests.1)
        (hclock.trans (htime.1.trans htime.2)) hrest hrequests.2
      refine ⟨hrecorded, fun clientId => ?_⟩
      have hafter : (s.after a).limiter.clientStates clientId ≠ none ↔
          s.limiter.clientStates clientId ≠ none ∨ a.clientId = clientId := by
        rw [LimiterRun.after]
        simp only [Function.update_apply, h.cleanup a.cleanupNow]
        by_cases hown : clientId = a.clientId
        · simp [hown]
        · simp [hown, Ne.symm hown]
      rw [hkeys, hafter, List.exists_mem_cons_iff, or_assoc]

end Kept

section Complete
variable {limiter : RateLimiter} {clock : ℚ}

/-- No check of a timely run tells whether buckets are dropped. A clean-up leaves no idle bucket if and
only if every idle bucket has an empty list; with limits of a request at least there is no such bucket,
and the buckets kept are those of all clients ever seen. -/
theorem cleanup_complete_iff (hclock : 0 ≤ clock)
    (hrun : PartialRun.exec step (initial limiter clock) history = some s) :
    (PartialRun.Along step Timely (initial limiter clock) history →
      verdicts (initial limiter clock) history = keptVerdicts (fun _ => {}) history) ∧
    (∀ a, s.limiter.CleanupDue a.cleanupNow → (s.CleanedUp history a ↔ s.IdleEmpty history a)) ∧
    ((∀ c ∈ history, 1 ≤ c.config.requests) → ∀ now clientId,
      (s.limiter.cleanupIfNeeded now).clientStates clientId ≠ none ↔
        ∃ c ∈ history, c.clientId = clientId) := by
  refine ⟨fun htimely => ?_, fun a hdue => cleanedUp_iff hdue, fun hrequests now clientId => ?_⟩
  · have halike : (initial limiter clock).AllAlike fun _ => {} := fun _ => ⟨rfl, .inl rfl⟩
    exact verdicts_eq halike hclock hrun htimely
  · have hrecorded : (initial limiter clock).Recorded := by
      intro clientId state hstate
      cases hstate
    obtain ⟨hlast, hkeys⟩ := exec_recorded hrecorded hclock hrun hrequests
    rw [hlast.cleanup now, hkeys]
    exact or_iff_right fun hne => hne rfl

/-- Two requests of a client, far apart, are answered as if there had been no clean-up. -/
theorem farApart_unseen :
    verdicts (initial (.new ⟨100, 60, 300⟩ none none none 0) 0) [oneIn 1 10 0, oneIn 1 10 400] =
      keptVerdicts (fun _ => {}) [oneIn 1 10 0, oneIn 1 10 400] :=
  (cleanup_complete_iff le_rfl (PartialRun.exec_cons_eq_some.mpr
    ⟨_, step_eq_some.mpr ⟨by decide +kernel, rfl⟩, exec_single (by decide +kernel)⟩)).1
      (by decide +kernel)

/-- A client that asked once, and never again, keeps its bucket. -/
theorem oneRequest_kept :
    ∃ s, PartialRun.exec step (initial (.new ⟨100, 60, 300⟩ none none none 0) 0) [oneIn 1 10 0] = some s ∧
      ¬ s.CleanedUp [oneIn 1 10 0] ⟨"ip:10.0.0.8:read", ⟨1, 10, 60⟩, 4000, 4000⟩ := by
  refine ⟨_, exec_single (by decide +kernel), fun h => ?_⟩
  exact h "ip:10.0.0.7:write" ⟨[0], 0, 1, 0⟩ (by decide +kernel) (by decide +kernel)

end Complete

end LimiterRun

end SmartMedia.RateLimit
