import SmartMedia.RateLimit.Window

/-!
# What `retry_after` promises

A refused client is told how many seconds to wait. The number is cut off to whole seconds, and after
the wait the window is looked at again.
-/
namespace SmartMedia.RateLimit

/-- A bucket is emptied only when nothing is in it and its block is over. -/
theorem RateLimiter.cleanup_state (limiter : RateLimiter) (now : ℚ) (clientId : String) :
    (limiter.cleanupIfNeeded now).state clientId = limiter.state clientId ∨
      (limiter.cleanupIfNeeded now).state clientId = {} ∧
        (limiter.state clientId).requests = [] ∧ (limiter.state clientId).blockedUntil < now := by
  rw [cleanupIfNeeded]
  split
  · exact .inl rfl
  · rw [state, state]
    cases hstate : limiter.clientStates clientId with
    | none =>
        left
        simp only [hstate, Option.filter_none]
    | some state =>
        simp only [hstate, Option.filter_some]
        split
        · exact .inl rfl
        · next hexpired =>
            rw [Bool.not_eq_true', Bool.not_eq_false, Bool.and_eq_true, decide_eq_true_iff,
              List.isEmpty_iff] at hexpired
            exact .inr ⟨rfl, hexpired.2, hexpired.1⟩

namespace LimiterRun
variable {s s' u : LimiterRun} {a b : Check} {others : List Check}

/-- With the same configuration, no other check in between and the wait over, the next check of the
bucket is allowed. -/
def RetryHonest (s : LimiterRun) (a : Check) : Prop :=
  ∀ others a' s', (∀ b ∈ others, b.clientId ≠ a.clientId) →
    PartialRun.exec step s (a :: others) = some s' → s'.step a' ≠ none →
      a'.clientId = a.clientId → a'.config = a.config →
        a.now + (s.verdict a).retryAfter ≤ a'.now → (s'.verdict a').isAllowed = true

/-- The end of the block that a refused check finds or sets. -/
def blockEnd (s : LimiterRun) (a : Check) : ℚ :=
  if s.isBlocked a then (s.found a).blockedUntil else a.now + a.config.blockDuration

/-- The first moment at which a client that waits whole seconds may come again. -/
def comeback (s : LimiterRun) (a : Check) : ℚ :=
  max (a.now + ⌊s.blockEnd a - a.now⌋) a.cleanupNow

/-- The block is over then, and the window that ends there has room. -/
structure ReadyAgain (s : LimiterRun) (a : Check) : Prop where
  block : s.blockEnd a ≤ s.comeback a
  room : (((s.found a).requests.filter (s.comeback a - a.config.seconds < ·)).length : ℤ) <
    a.config.requests

section Refused

/-- A refused check leaves the end of its block, and the timestamps of later windows. -/
theorem refused_state (h : (s.verdict a).isAllowed = false) :
    ((s.after a).limiter.state a.clientId).blockedUntil = s.blockEnd a ∧
      (s.verdict a).retryAfter = ⌊s.blockEnd a - a.now⌋ ∧
        ∀ start, a.now - a.config.seconds ≤ start →
          ((s.after a).limiter.state a.clientId).requests.filter (start < ·) =
            (s.found a).requests.filter (start < ·) := by
  have hstate : (s.after a).limiter.state a.clientId = ((s.found a).check a.config a.now).1 := by
    rw [after, RateLimiter.state]
    simp only [Function.update_self, Option.getD_some]
  rw [hstate]
  rw [verdict] at h ⊢
  rw [blockEnd, isBlocked]
  by_cases hblocked : a.now < (s.found a).blockedUntil
  · rw [ClientState.check, if_pos hblocked, decide_eq_true hblocked, if_pos rfl]
    exact ⟨rfl, rfl, fun _ _ => rfl⟩
  · by_cases hmany : a.config.requests ≤ ((s.found a).pruned a.config a.now).length
    · rw [ClientState.check, if_neg hblocked, decide_eq_false hblocked]
      dsimp only
      rw [if_pos hmany, if_neg Bool.false_ne_true]
      refine ⟨rfl, ?_, ?_⟩
      · rw [add_sub_cancel_left, Int.floor_intCast]
      · intro start hstart
        rw [ClientState.pruned, List.filter_filter]
        apply List.filter_congr
        intro τ _
        rw [Bool.and_eq_left_iff_imp, decide_eq_true_iff, decide_eq_true_iff]
        exact lt_of_le_of_lt hstart
    · rw [ClientState.check, if_neg hblocked] at h
      dsimp only at h
      rw [if_neg hmany] at h
      cases h

theorem step_clock (h : s.step a = some s') : s.clock ≤ s'.clock := by
  obtain ⟨⟨hclock, hnow⟩, rfl⟩ := step_eq_some.mp h
  exact hclock.trans hnow

theorem exec_single (h : s.clock ≤ a.now ∧ a.now ≤ a.cleanupNow) :
    PartialRun.exec step s [a] = some (s.after a) := by
  rw [PartialRun.exec_cons, step_eq_some.mpr ⟨h, rfl⟩]
  rfl

theorem exec_clock (h : PartialRun.exec step s others = some s') : s.clock ≤ s'.clock := by
  induction others generalizing s with
  | nil => exact (Option.some_inj.mp h) ▸ le_rfl
  | cons b others ih =>
      obtain ⟨u, hstep, hrest⟩ := PartialRun.exec_cons_eq_some.mp h
      exact (step_clock hstep).trans (ih hrest)

/-- The checks of other buckets leave a bucket alone, unless they empty it. -/
theorem state_untouched {clientId : String} (hothers : ∀ b ∈ others, b.clientId ≠ clientId)
    (h : PartialRun.exec step s others = some s') :
    s'.limiter.state clientId = s.limiter.state clientId ∨
      s'.limiter.state clientId = {} ∧ (s.limiter.state clientId).requests = [] := by
  induction others generalizing s with
  | nil => exact .inl (Option.some_inj.mp h ▸ rfl)
  | cons b others ih =>
      obtain ⟨u, hstep, hrest⟩ := PartialRun.exec_cons_eq_some.mp h
      rw [List.forall_mem_cons] at hothers
      have hafter : u.limiter.state clientId =
          (s.limiter.cleanupIfNeeded b.cleanupNow).state clientId := by
        rw [(step_eq_some.mp hstep).2, after, RateLimiter.state, RateLimiter.state]
        simp only [Function.update_of_ne (Ne.symm hothers.1)]
      have hstate := s.limiter.cleanup_state b.cleanupNow clientId
      rw [← hafter] at hstate
      rcases ih hothers.2 hrest with hsame | ⟨hempty, hrequests⟩
      · rw [hsame]
        exact hstate.imp_right fun hcleaned => ⟨hcleaned.1, hcleaned.2.1⟩
      · right
        refine ⟨hempty, ?_⟩
        rcases hstate with hstate | ⟨-, hcleaned, -⟩
        · rwa [← hstate]
        · exact hcleaned

end Refused

section Promise
variable {limiter : RateLimiter} {clock : ℚ} {history : List Check}

/-- What a later check of the bucket finds. -/
theorem found_later {a' : Check} (hothers : ∀ b ∈ others, b.clientId ≠ a.clientId)
    (hrun : PartialRun.exec step (s.after a) others = some s') (hsame : a'.clientId = a.clientId) :
    s'.found a' = (s.after a).limiter.state a.clientId ∨
      s'.found a' = {} ∧ ((s.after a).limiter.state a.clientId).requests = [] := by
  have hcleanup := s'.limiter.cleanup_state a'.cleanupNow a.clientId
  rw [found, hsame]
  rcases state_untouched hothers hrun with hstate | ⟨hempty, hrequests⟩
  · rw [hstate] at hcleanup
    exact hcleanup.imp_right fun hcleaned => ⟨hcleaned.1, hcleaned.2.1⟩
  · rw [hempty] at hcleanup
    exact .inr ⟨hcleanup.elim id fun hcleaned => hcleaned.1, hrequests⟩

theorem ReadyAgain.honest (h : s.ReadyAgain a) (hclock : 0 ≤ s.clock)
    (hrefused : (s.verdict a).isAllowed = false) (hrequests : 1 ≤ a.config.requests) :
    s.RetryHonest a := by
  intro others a' s' hothers hrun henabled hsame hconfig hwait
  obtain ⟨u, hstep, hrest⟩ := PartialRun.exec_cons_eq_some.mp hrun
  obtain ⟨htime, rfl⟩ := step_eq_some.mp hstep
  obtain ⟨u', hu'⟩ := Option.ne_none_iff_exists'.mp henabled
  have hlater : a.cleanupNow ≤ a'.now := (exec_clock hrest).trans (step_eq_some.mp hu').1.1
  obtain ⟨hend, hretry, hwindow⟩ := refused_state hrefused
  rw [hretry] at hwait
  have hcomeback : s.comeback a ≤ a'.now := max_le hwait hlater
  rw [isAllowed_iff, isBlocked, hconfig, ClientState.pruned]
  rcases found_later hothers hrest hsame with hfound | ⟨hfound, -⟩
  · rw [hfound, hend, decide_eq_false (not_lt.mpr (h.block.trans hcomeback))]
    refine ⟨rfl, ?_⟩
    have hnow : a.now - a.config.seconds ≤ a'.now - a.config.seconds :=
      sub_le_sub_right (htime.2.trans hlater) _
    rw [hwindow _ hnow]
    have hfewer : ((s.found a).requests.filter (a'.now - a.config.seconds < ·)).length ≤
        ((s.found a).requests.filter (s.comeback a - a.config.seconds < ·)).length := by
      apply List.Sublist.length_le
      apply List.monotone_filter_right
      intro τ hτ
      rw [decide_eq_true_iff] at hτ ⊢
      exact lt_of_le_of_lt (sub_le_sub_right hcomeback _) hτ
    have hroom := h.room
    omega
  · have hpositive : 0 ≤ a'.now :=
      hclock.trans (htime.1.trans (htime.2.trans hlater))
    rw [hfound]
    refine ⟨decide_eq_false (not_lt.mpr hpositive), ?_⟩
    exact Int.lt_of_lt_of_le zero_lt_one hrequests

theorem RetryHonest.readyAgain (h : s.RetryHonest a) (htime : s.clock ≤ a.now ∧ a.now ≤ a.cleanupNow)
    (hrefused : (s.verdict a).isAllowed = false) (hrequests : 1 ≤ a.config.requests) :
    s.ReadyAgain a := by
  obtain ⟨hend, hretry, hwindow⟩ := refused_state hrefused
  -- the client comes again as early as it may
  set again : Check := ⟨a.clientId, a.config, s.comeback a, s.comeback a⟩ with hagain
  have henabled : (s.after a).step again ≠ none := by
    rw [step_eq_some.mpr ⟨⟨le_max_right _ _, le_rfl⟩, rfl⟩]
    exact Option.some_ne_none _
  have hallowed := h [] again (s.after a) (by simp) (exec_single htime) henabled rfl rfl
    (hretry ▸ le_max_left _ _)
  rw [isAllowed_iff, isBlocked, ClientState.pruned, decide_eq_false_iff_not, not_lt] at hallowed
  have hnow : a.now - a.config.seconds ≤ s.comeback a - a.config.seconds :=
    sub_le_sub_right (htime.2.trans (le_max_right _ _)) _
  have hfound := (s.after a).limiter.cleanup_state (s.comeback a) a.clientId
  change (s.after a).found again = _ ∨ (s.after a).found again = _ ∧ _ at hfound
  rcases hfound with hfound | ⟨-, hempty, hover⟩
  · rw [hfound, hend] at hallowed
    refine ⟨hallowed.1, ?_⟩
    rw [← hwindow _ hnow]
    exact hallowed.2
  · refine ⟨hend ▸ hover.le, ?_⟩
    rw [← hwindow _ hnow, hempty]
    exact Int.lt_of_lt_of_le zero_lt_one hrequests

/-- So the promise of a refused check is kept if and only if its block ends on a whole second, or
before the check does, and the window has room then. -/
theorem retryHonest_iff (hclock : 0 ≤ clock)
    (hrun : PartialRun.exec step (initial limiter clock) history = some s)
    (htime : s.clock ≤ a.now ∧ a.now ≤ a.cleanupNow) (hrefused : (s.verdict a).isAllowed = false)
    (hrequests : 1 ≤ a.config.requests) : s.RetryHonest a ↔ s.ReadyAgain a := by
  constructor
  · exact fun h => h.readyAgain htime hrefused hrequests
  · exact fun h => h.honest (hclock.trans (exec_clock hrun)) hrefused hrequests

/-- One request in ten seconds is let in again after a block of a minute. -/
theorem retryHonest_minute : ((initial (.new ⟨100, 60, 300⟩ none none none 0) 0).after
    (oneIn 1 10 0)).RetryHonest (oneIn 1 10 5) :=
  (retryHonest_iff le_rfl (exec_single (by decide +kernel)) (by decide +kernel) (by decide +kernel)
    (by decide +kernel)).mpr ⟨by decide +kernel, by decide +kernel⟩

/-- Half a second before the end of its block the client is told to wait for no seconds. -/
theorem retry_refused_again :
    ∃ s, PartialRun.exec step (initial (.new ⟨100, 60, 300⟩ none none none 0) 0)
        [oneIn 1 10 0, oneIn 1 10 5] = some s ∧
      (s.verdict (oneIn 1 10 (129 / 2))).isAllowed = false ∧
      ¬s.RetryHonest (oneIn 1 10 (129 / 2)) := by
  refine ⟨_, rfl, by decide +kernel, ?_⟩
  intro h
  have hagain := h [] (oneIn 1 10 (259 / 4)) _ (by simp) (exec_single (by decide +kernel))
    (by
      rw [step_eq_some.mpr ⟨by decide +kernel, rfl⟩]
      exact Option.some_ne_none _)
    rfl rfl (by decide +kernel)
  exact absurd hagain (by decide +kernel)

end Promise

end LimiterRun

end SmartMedia.RateLimit
