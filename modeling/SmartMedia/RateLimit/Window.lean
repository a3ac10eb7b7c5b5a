import Mathlib.Data.List.Count
import Mathlib.Tactic.Linarith
import SmartMedia.RateLimit.RateLimiter

/-!
# The window of a rate limit

A check with a short window takes timestamps out of the list that a longer window still
covers. As long as no check misses one of these, and so whenever the checks of a bucket
all have the same window, an allowed check has fewer than `requests` before it.
-/
namespace SmartMedia.RateLimit

/-- Strictly between the start of the window and its end. -/
def inWindow (config : RateLimitConfig) (now τ : ℚ) : Bool := now - config.seconds < τ && τ < now

theorem RateLimiter.cleanup_requests (limiter : RateLimiter) (now : ℚ) (clientId : String) :
    ((limiter.cleanupIfNeeded now).state clientId).requests = (limiter.state clientId).requests := by
  rw [cleanupIfNeeded]
  split
  · rfl
  · rw [state, state]
    cases hstate : limiter.clientStates clientId with
    | none => simp only [hstate, Option.filter_none]
    | some state =>
        simp only [hstate, Option.filter_some]
        split
        · rfl
        · next hexpired =>
            have hempty : state.requests = [] := by simp_all
            exact hempty.symm

namespace LimiterRun

/-- The property of a check: when it is allowed, fewer than `requests` before it were. -/
def WindowRespected (s : LimiterRun) (a : Check) : Prop :=
  (s.verdict a).isAllowed = true →
    ((s.allowed a.clientId).countP (inWindow a.config a.now) : ℤ) < a.config.requests

/-- A check that no block refuses has lost no timestamp of its window. -/
def KeepsWindow (s : LimiterRun) (a : Check) : Prop :=
  s.isBlocked a = true ∨ ∀ τ ∈ s.forgotten a.clientId, inWindow a.config a.now τ = false

instance (s : LimiterRun) (a : Check) : Decidable (s.WindowRespected a) :=
  inferInstanceAs (Decidable (_ → _))

instance (s : LimiterRun) (a : Check) : Decidable (s.KeepsWindow a) :=
  inferInstanceAs (Decidable (_ ∨ _))

/-- The allowed checks of a bucket are those in its list and those taken out of it. -/
def Accounted (s : LimiterRun) : Prop :=
  ∀ clientId, (s.allowed clientId).Perm (s.forgotten clientId ++ (s.limiter.state clientId).requests)

def initial (limiter : RateLimiter) (clock : ℚ) : LimiterRun where
  limiter := { limiter with clientStates := fun _ => none }
  clock := clock

theorem initial_accounted (limiter : RateLimiter) (clock : ℚ) : (initial limiter clock).Accounted :=
  fun _ => List.Perm.refl _

section Steps
variable {s s' : LimiterRun} {a : Check}

theorem found_requests : (s.found a).requests = (s.limiter.state a.clientId).requests :=
  RateLimiter.cleanup_requests _ _ _

/-- What a check does with the timestamps it finds. -/
theorem check_requests :
    ((s.found a).requests ++ if (s.verdict a).isAllowed then [a.now] else []).Perm
      (s.dropped a ++ ((s.found a).check a.config a.now).1.requests) := by
  have hsplit : (s.found a).requests.Perm
      ((s.found a).requests.filter (fun τ => !(a.now - a.config.seconds < τ)) ++
        (s.found a).pruned a.config a.now) := by
    apply List.Perm.trans _ List.perm_append_comm
    exact (List.filter_append_perm _ _).symm
  rw [verdict, dropped, isBlocked, ClientState.check]
  by_cases hblocked : a.now < (s.found a).blockedUntil
  · simp [hblocked]
  · by_cases hmany : a.config.requests ≤ ((s.found a).pruned a.config a.now).length
    · simpa [hblocked, hmany] using hsplit
    · simpa [hblocked, hmany] using hsplit.append_right [a.now]

/-- A check that is allowed has found fewer than `requests` timestamps in its window. -/
theorem isAllowed_iff : (s.verdict a).isAllowed = true ↔
    s.isBlocked a = false ∧
      (((s.found a).pruned a.config a.now).length : ℤ) < a.config.requests := by
  rw [verdict, isBlocked, ClientState.check]
  by_cases hblocked : a.now < (s.found a).blockedUntil
  · simp [hblocked]
  · by_cases hmany : a.config.requests ≤ ((s.found a).pruned a.config a.now).length
    · simp [hblocked, hmany]
    · simp only [hblocked, hmany, decide_false, if_false, true_and, true_iff]
      omega

theorem after_accounted (h : s.Accounted) : (s.after a).Accounted := by
  intro clientId
  by_cases hsame : clientId = a.clientId
  · subst hsame
    have hbefore := (h a.clientId).append_right (if (s.verdict a).isAllowed then [a.now] else [])
    rw [List.append_assoc, ← found_requests] at hbefore
    have hafter := hbefore.trans (check_requests.append_left (s.forgotten a.clientId))
    simpa [after, RateLimiter.state] using hafter
  · have hother := h clientId
    rw [← s.limiter.cleanup_requests a.cleanupNow] at hother
    simpa [after, RateLimiter.state, Function.update_of_ne hsame] using hother

theorem windowRespected_of_keepsWindow (h : s.Accounted) (hkeeps : s.KeepsWindow a) :
    s.WindowRespected a := by
  intro hallowed
  obtain ⟨hblocked, hfew⟩ := isAllowed_iff.mp hallowed
  have hforgotten : (s.forgotten a.clientId).countP (inWindow a.config a.now) = 0 := by
    rw [List.countP_eq_zero]
    intro τ hτ
    rw [hkeeps.resolve_left (by simp [hblocked]) τ hτ]
    exact Bool.false_ne_true
  have hkept : (s.found a).requests.countP (inWindow a.config a.now) ≤
      ((s.found a).pruned a.config a.now).length := by
    rw [ClientState.pruned, ← List.countP_eq_length_filter]
    apply List.countP_mono_left
    intro τ _ hτ
    exact (Bool.and_eq_true_iff.mp hτ).1
  have hcount : (s.allowed a.clientId).countP (inWindow a.config a.now) =
      (s.found a).requests.countP (inWindow a.config a.now) := by
    rw [(h a.clientId).countP_eq, List.countP_append, hforgotten, Nat.zero_add, found_requests]
  rw [hcount]
  omega

theorem Accounted.windowRespected {checks : List Check} (h : s.Accounted)
    (hkeeps : PartialRun.Along step KeepsWindow s checks) :
    PartialRun.Along step WindowRespected s checks := by
  apply PartialRun.along_of_along _ _ h hkeeps
  · intro s a s' haccounted _ hstep
    rw [(step_eq_some.mp hstep).2]
    exact after_accounted haccounted
  · intro s a haccounted ha
    exact windowRespected_of_keepsWindow haccounted ha

/-- In a run whose checks meet the condition every allowed check respects its window. -/
theorem window_respected (limiter : RateLimiter) (clock : ℚ) {checks : List Check}
    (hkeeps : PartialRun.Along step KeepsWindow (initial limiter clock) checks) :
    PartialRun.Along step WindowRespected (initial limiter clock) checks :=
  (initial_accounted limiter clock).windowRespected hkeeps

/-- Every timestamp taken out has left the last window of its bucket. -/
def Passed (seconds : String → ℤ) (s : LimiterRun) : Prop :=
  ∀ clientId, ∀ τ ∈ s.forgotten clientId, τ ≤ s.clock - seconds clientId

theorem after_passed {seconds : String → ℤ} (h : s.Passed seconds)
    (hseconds : a.config.seconds = seconds a.clientId) (hclock : s.clock ≤ a.now)
    (hnow : a.now ≤ a.cleanupNow) : (s.after a).Passed seconds := by
  intro clientId τ hτ
  change τ ≤ a.cleanupNow - _
  change τ ∈ Function.update s.forgotten a.clientId (s.forgotten a.clientId ++ s.dropped a) clientId at hτ
  by_cases hsame : clientId = a.clientId
  · subst hsame
    rw [Function.update_self, List.mem_append] at hτ
    rcases hτ with hτ | hτ
    · have hle := h _ τ hτ
      linarith
    · rw [dropped] at hτ
      split at hτ
      · cases hτ
      · have hout := (List.mem_filter.mp hτ).2
        simp only [Bool.not_eq_true', decide_eq_false_iff_not, not_lt, hseconds] at hout
        linarith
  · rw [Function.update_of_ne hsame] at hτ
    have hle := h _ τ hτ
    linarith

theorem Passed.keepsWindow {seconds : String → ℤ} (h : s.Passed seconds)
    (hseconds : a.config.seconds = seconds a.clientId) (hclock : s.clock ≤ a.now) :
    s.KeepsWindow a := by
  refine .inr ?_
  intro τ hτ
  have hle := h _ τ hτ
  have hstart : ¬ a.now - a.config.seconds < τ := by
    rw [hseconds, not_lt]
    linarith
  rw [inWindow, decide_eq_false hstart, Bool.false_and]

/-- Where all checks of a bucket have one window, no window reaches back further than those
before it. -/
theorem keepsWindow_of_uniform (limiter : RateLimiter) (clock : ℚ) (seconds : String → ℤ)
    {checks : List Check} {s' : LimiterRun}
    (huniform : ∀ check ∈ checks, check.config.seconds = seconds check.clientId)
    (hrun : PartialRun.exec step (initial limiter clock) checks = some s') :
    PartialRun.Along step KeepsWindow (initial limiter clock) checks := by
  have hchecks : PartialRun.Along step
      (fun s a => a.config.seconds = seconds a.clientId ∧ ∃ u, step s a = some u)
      (initial limiter clock) checks := by
    apply PartialRun.along_and.mpr
    refine ⟨PartialRun.along_iff_split.mpr ?_, PartialRun.along_enabled hrun⟩
    rintro pre a post rfl u -
    exact huniform a (by simp)
  have hinitial : Passed seconds (initial limiter clock) := by
    intro clientId τ hτ
    cases hτ
  apply PartialRun.along_of_along _ _ hinitial hchecks
  · rintro s a u hpassed ⟨hseconds, -⟩ hstep
    obtain ⟨⟨hclock, hnow⟩, rfl⟩ := step_eq_some.mp hstep
    exact after_passed hpassed hseconds hclock hnow
  · rintro s a hpassed ⟨hseconds, u, hstep⟩
    exact hpassed.keepsWindow hseconds (step_eq_some.mp hstep).1.1

end Steps

end LimiterRun

/-- The bucket of a request tells which of the two configurations it is checked with. -/
theorem getClientBucket_read (fingerprintToken : String → String) (request : Request) :
    "read".toList <:+ (getClientBucket fingerprintToken request).toList ↔ request.isSafe = true := by
  rw [getClientBucket, String.toList_append, String.toList_append]
  cases hsafe : request.isSafe with
  | true => exact iff_of_true (List.suffix_append _ _) rfl
  | false =>
      refine iff_of_false ?_ Bool.false_ne_true
      rintro ⟨front, hsuffix⟩
      have hlast := congrArg List.getLast? hsuffix
      simp at hlast

/-- The middleware gives each bucket one window: what it lets through respects it. -/
theorem middleware_windowRespected (fingerprintToken : String → String) (limiter : RateLimiter)
    (clock : ℚ) {requests : List (Request × ℚ × ℚ)} {s' : LimiterRun}
    (hrun : PartialRun.exec LimiterRun.step (LimiterRun.initial limiter clock)
      (requests.map fun r => middlewareCheck fingerprintToken limiter r.1 r.2.1 r.2.2) = some s') :
    PartialRun.Along LimiterRun.step LimiterRun.WindowRespected (LimiterRun.initial limiter clock)
      (requests.map fun r => middlewareCheck fingerprintToken limiter r.1 r.2.1 r.2.2) := by
  let seconds (clientId : String) : ℤ :=
    if "read".toList <:+ clientId.toList then limiter.readConfig.seconds
    else limiter.defaultConfig.seconds
  apply (LimiterRun.initial_accounted limiter clock).windowRespected
  apply LimiterRun.keepsWindow_of_uniform limiter clock seconds _ hrun
  intro check hcheck
  obtain ⟨r, -, rfl⟩ := List.mem_map.mp hcheck
  simp only [middlewareCheck, seconds, getClientBucket_read, RateLimiter.getRequestConfig]
  split
  · rfl
  · rfl

namespace LimiterRun

def oneIn (requests seconds : ℤ) (now : ℚ) : Check := ⟨"ip:10.0.0.7:write", ⟨requests, seconds, 60⟩, now, now⟩

theorem window_respected_mixed :
    PartialRun.Along step WindowRespected (initial (.new ⟨100, 60, 300⟩ none none none 0) 0)
      [oneIn 2 60 0, oneIn 100 30 10, oneIn 2 60 11] :=
  window_respected _ _ (by decide +kernel)

/-- A limit of one request a second forgets what a limit of two a minute still needs. -/
theorem window_not_respected :
    ¬ PartialRun.Along step WindowRespected (initial (.new ⟨100, 60, 300⟩ none none none 0) 0)
      [oneIn 2 60 0, oneIn 100 1 10, oneIn 2 60 11] := by
  decide +kernel

end LimiterRun

end SmartMedia.RateLimit
