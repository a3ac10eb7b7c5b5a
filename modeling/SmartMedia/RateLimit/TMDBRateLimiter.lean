import Mathlib.Algebra.Order.Ring.Rat
import SmartMedia.Library.Counting
import SmartMedia.Library.PartialRun
import SmartMedia.Library.SlidingWindow

/-!
# The request limiter of TMDB

`TMDBRateLimiter.acquire` of `app/services/tmdb_service.py`, with any number of callers. The body
of `async with` runs to its end at once unless it sleeps, and a caller that has slept waits for
the lock that it holds. `granted` lists, the latest first, the times of all requests.
-/
namespace SmartMedia.RateLimit
open SlidingWindow

structure TMDBRateLimiter where
  maxRequests : ℤ := 40
  timeWindow : ℤ := 10
  requests : List ℚ := []
  deriving DecidableEq, Repr

/-- How the body of `async with` goes on. -/
inductive Attempt
  | granted
  | waits (seconds : ℚ)
  | indexError
  deriving DecidableEq, Repr

def TMDBRateLimiter.attempt (limiter : TMDBRateLimiter) (now : ℚ) : Attempt × TMDBRateLimiter :=
  let requests := recent (limiter.timeWindow : ℚ) now limiter.requests
  let append := { limiter with requests := requests ++ [now] }
  if limiter.maxRequests ≤ requests.length then
    match requests with
    | [] => (.indexError, { limiter with requests })
    | oldest :: _ =>
        let waitTime := limiter.timeWindow - (now - oldest)
        if 0 < waitTime then (.waits waitTime, { limiter with requests }) else (.granted, append)
  else (.granted, append)

/-- A call of `acquire`, and how many calls of the same caller are around it. -/
structure Acquire where
  caller : ℕ
  depth : ℕ
  deriving DecidableEq, Repr

structure TMDBCallers where
  limiter : TMDBRateLimiter
  clock : ℚ
  calls : ℕ := 0
  locked : Bool := false
  waiting : List Acquire := []
  sleeping : List (Acquire × ℚ) := []
  granted : List ℚ := []
  deriving DecidableEq, Repr

/-- A caller that is cancelled leaves all its `async with` blocks. -/
inductive AcquireEvent
  | acquire
  | enter (call : Acquire) (now : ℚ)
  | wake (call : Acquire) (wakeAt now : ℚ)
  | cancelWaiting (call : Acquire)
  | cancelSleeping (call : Acquire) (wakeAt : ℚ)
  deriving DecidableEq, Repr

namespace TMDBCallers

/-- The lock is taken and the body begins. -/
def enter (s : TMDBCallers) (call : Acquire) (now : ℚ) : TMDBCallers :=
  let attempt := s.limiter.attempt now
  let left := { s with limiter := attempt.2, clock := now, waiting := s.waiting.erase call }
  match attempt.1 with
  | .granted => { left with granted := now :: s.granted }
  | .waits seconds => { left with locked := true, sleeping := (call, now + seconds) :: s.sleeping }
  | .indexError => left

def step (s : TMDBCallers) : AcquireEvent → Option TMDBCallers
  | .acquire => some { s with calls := s.calls + 1, waiting := s.waiting ++ [⟨s.calls, 0⟩] }
  | .enter call now =>
      if call ∈ s.waiting ∧ s.locked = false ∧ s.clock ≤ now then some (s.enter call now) else none
  | .wake call wakeAt now =>
      if (call, wakeAt) ∈ s.sleeping ∧ wakeAt ≤ now ∧ s.clock ≤ now then
        -- the lock is still held while the same caller asks for it again
        some { s with
          clock := now
          sleeping := s.sleeping.erase (call, wakeAt)
          waiting := s.waiting ++ [⟨call.caller, call.depth + 1⟩] }
      else none
  | .cancelWaiting call =>
      if call ∈ s.waiting then
        some { s with
          waiting := s.waiting.erase call
          locked := if call.depth = 0 then s.locked else false }
      else none
  | .cancelSleeping call wakeAt =>
      if (call, wakeAt) ∈ s.sleeping then
        some { s with sleeping := s.sleeping.erase (call, wakeAt), locked := false }
      else none

/-- No call has been made yet. -/
def fresh (maxRequests timeWindow : ℤ) (clock : ℚ) : TMDBCallers :=
  { limiter := { maxRequests, timeWindow }, clock }

end TMDBCallers

section Attempts
variable {limiter : TMDBRateLimiter} {now : ℚ}

/-- What the limiter remembers of the window. -/
def TMDBRateLimiter.remembered (limiter : TMDBRateLimiter) (now : ℚ) : List ℚ :=
  recent (limiter.timeWindow : ℚ) now limiter.requests

/-- All that an attempt can do. A full window makes it wait for a time that is not zero. -/
inductive Attempted (limiter : TMDBRateLimiter) (now : ℚ) : Attempt × TMDBRateLimiter → Prop
  | granted (hfew : ((limiter.remembered now).length : ℤ) < limiter.maxRequests) :
      Attempted limiter now
        (.granted, { limiter with requests := limiter.remembered now ++ [now] })
  | waits (seconds : ℚ) (hfull : limiter.maxRequests ≤ (limiter.remembered now).length)
      (hsome : limiter.remembered now ≠ []) (hpos : 0 < seconds) :
      Attempted limiter now (.waits seconds, { limiter with requests := limiter.remembered now })
  | indexError (hfull : limiter.maxRequests ≤ 0) (hnone : limiter.remembered now = []) :
      Attempted limiter now (.indexError, { limiter with requests := limiter.remembered now })

theorem attempted (limiter : TMDBRateLimiter) (now : ℚ) :
    Attempted limiter now (limiter.attempt now) := by
  rw [TMDBRateLimiter.attempt]
  change Attempted limiter now (if limiter.maxRequests ≤ (limiter.remembered now).length then _ else _)
  split_ifs with hfull
  · cases hrecent : limiter.remembered now with
    | nil =>
        rw [hrecent] at hfull
        have herror : Attempted limiter now
            (.indexError, { limiter with requests := limiter.remembered now }) :=
          .indexError hfull hrecent
        rw [hrecent] at herror
        rw [TMDBRateLimiter.remembered] at hrecent
        simp only [hrecent]
        exact herror
    | cons oldest rest =>
        have hmem : oldest ∈ limiter.remembered now := by
          rw [hrecent]
          exact List.mem_cons_self
        have hyoung : now - oldest < limiter.timeWindow := of_decide_eq_true (List.mem_filter.mp hmem).2
        have hpos : 0 < limiter.timeWindow - (now - oldest) := sub_pos.mpr hyoung
        have hwait := Attempted.waits _ hfull (List.ne_nil_of_mem hmem) hpos
        rw [hrecent] at hwait
        rw [TMDBRateLimiter.remembered] at hrecent
        simp only [hrecent, if_pos hpos]
        exact hwait
  · exact .granted (lt_of_not_ge hfull)

end Attempts

namespace TMDBCallers

section Steps
variable {s s' t : TMDBCallers} {call : Acquire} {now wakeAt : ℚ} {e : AcquireEvent}
  {events before after : List AcquireEvent} {maxRequests timeWindow : ℤ} {clock : ℚ}

/-- The calls that have the lock or a call with the lock around them. -/
def inside (s : TMDBCallers) : ℕ := s.sleeping.length + s.waiting.countP (0 < ·.depth)

/-- What all callers keep. -/
structure Sound (s : TMDBCallers) : Prop where
  inside_eq : s.inside = if s.locked then 1 else 0
  remembered_eq : s.limiter.remembered s.clock =
    (recent (s.limiter.timeWindow : ℚ) s.clock s.granted).reverse
  spaced : Spaced s.limiter.maxRequests.toNat (s.limiter.timeWindow : ℚ) s.granted

theorem fresh_sound : (fresh maxRequests timeWindow clock).Sound :=
  ⟨rfl, rfl, trivial⟩

theorem Sound.remembered_of_le (h : s.Sound) (hnow : s.clock ≤ now) :
    s.limiter.remembered now = (recent (s.limiter.timeWindow : ℚ) now s.granted).reverse := by
  have heq := h.remembered_eq
  rw [TMDBRateLimiter.remembered, ← List.reverse_eq_iff, ← recent_reverse] at heq
  rw [TMDBRateLimiter.remembered, ← List.reverse_eq_iff, ← recent_reverse]
  exact recent_congr_of_le hnow heq

/-- While the lock is free no call is inside another. -/
theorem Sound.depth_eq_zero (h : s.Sound) (hfree : s.locked = false) (hmem : call ∈ s.waiting) :
    call.depth = 0 := by
  have hinside := h.inside_eq
  rw [hfree, inside, if_neg Bool.false_ne_true, Nat.add_eq_zero_iff, List.countP_eq_zero] at hinside
  have hdepth := hinside.2 call hmem
  simpa using hdepth

theorem countP_erase (hmem : call ∈ s.waiting) :
    (s.waiting.erase call).countP (0 < ·.depth) + (if 0 < call.depth then 1 else 0) =
      s.waiting.countP (0 < ·.depth) := by
  have hperm := (List.perm_cons_erase hmem).countP_eq (0 < ·.depth)
  rw [hperm, List.countP_cons]
  simp only [decide_eq_true_eq]

/-- What the limiter remembers after an attempt. -/
theorem Sound.after_attempt (h : s.Sound) (hnow : s.clock ≤ now) :
    recent (s.limiter.timeWindow : ℚ) now (s.limiter.remembered now) =
      (recent (s.limiter.timeWindow : ℚ) now s.granted).reverse := by
  rw [TMDBRateLimiter.remembered, recent_recent le_rfl]
  exact h.remembered_of_le hnow

theorem Sound.enter (h : s.Sound) (hmem : call ∈ s.waiting) (hfree : s.locked = false)
    (hnow : s.clock ≤ now) : (s.enter call now).Sound := by
  have hdepth := h.depth_eq_zero hfree hmem
  have hcount := countP_erase hmem
  rw [hdepth, if_neg (lt_irrefl 0), Nat.add_zero] at hcount
  have hinside := h.inside_eq
  rw [inside, hfree, if_neg Bool.false_ne_true] at hinside
  have hafter := h.after_attempt hnow
  rw [TMDBCallers.enter]
  generalize hattempt : s.limiter.attempt now = attempt
  have hcases := attempted s.limiter now
  rw [hattempt] at hcases
  cases hcases with
  | granted hfew =>
      refine ⟨?_, recent_concat hafter now, ?_, h.spaced⟩
      · rw [inside]
        dsimp only
        rw [hcount, hfree, hinside, if_neg Bool.false_ne_true]
      · dsimp only
        rw [← List.length_reverse, ← h.remembered_of_le hnow]
        omega
  | waits seconds hfull hsome hpos =>
      refine ⟨?_, hafter, h.spaced⟩
      rw [inside]
      dsimp only
      rw [hcount, List.length_cons, if_pos rfl]
      omega
  | indexError hfull hnone =>
      refine ⟨?_, hafter, h.spaced⟩
      rw [inside]
      dsimp only
      rw [hcount, hfree, hinside, if_neg Bool.false_ne_true]

theorem Sound.step (h : s.Sound) (hstep : s.step e = some s') : s'.Sound := by
  have hinside := h.inside_eq
  cases e with
  | acquire =>
      cases hstep
      refine ⟨?_, h.remembered_eq, h.spaced⟩
      rw [inside]
      dsimp only
      rw [Counting.countP_concat_of_neg (by simp)]
      exact hinside
  | enter call now =>
      rw [TMDBCallers.step] at hstep
      split_ifs at hstep with hcan
      cases hstep
      exact h.enter hcan.1 hcan.2.1 hcan.2.2
  | wake call wakeAt now =>
      rw [TMDBCallers.step] at hstep
      split_ifs at hstep with hcan
      cases hstep
      refine ⟨?_, h.remembered_of_le hcan.2.2, h.spaced⟩
      have hlength := List.length_erase_of_mem hcan.1
      have hpos := List.length_pos_of_mem hcan.1
      rw [inside] at hinside ⊢
      dsimp only
      rw [List.countP_append, List.countP_singleton, if_pos (by simp), hlength, ← hinside]
      omega
  | cancelWaiting call =>
      by_cases hmem : call ∈ s.waiting
      · rw [TMDBCallers.step, if_pos hmem] at hstep
        cases hstep
        refine ⟨?_, h.remembered_eq, h.spaced⟩
        have hcount := countP_erase hmem
        rw [inside] at hinside ⊢
        dsimp only
        by_cases hdepth : call.depth = 0
        · rw [hdepth, if_neg (lt_irrefl 0)] at hcount
          rw [if_pos hdepth, ← hinside]
          omega
        · rw [if_pos (Nat.pos_of_ne_zero hdepth)] at hcount
          rw [if_neg hdepth, if_neg Bool.false_ne_true]
          split_ifs at hinside <;> omega
      · rw [TMDBCallers.step, if_neg hmem] at hstep
        cases hstep
  | cancelSleeping call wakeAt =>
      rw [TMDBCallers.step] at hstep
      split_ifs at hstep with hmem
      cases hstep
      refine ⟨?_, h.remembered_eq, h.spaced⟩
      have hlength := List.length_erase_of_mem hmem
      have hpos := List.length_pos_of_mem hmem
      rw [inside] at hinside ⊢
      dsimp only
      rw [if_neg Bool.false_ne_true]
      split_ifs at hinside <;> omega

theorem enter_limits : (s.enter call now).limiter.maxRequests = s.limiter.maxRequests ∧
    (s.enter call now).limiter.timeWindow = s.limiter.timeWindow := by
  rw [TMDBCallers.enter]
  generalize hattempt : s.limiter.attempt now = attempt
  have hcases := attempted s.limiter now
  rw [hattempt] at hcases
  cases hcases <;> exact ⟨rfl, rfl⟩

theorem step_limits (hstep : s.step e = some s') :
    s'.limiter.maxRequests = s.limiter.maxRequests ∧
      s'.limiter.timeWindow = s.limiter.timeWindow := by
  cases e with
  | acquire =>
      cases hstep
      exact ⟨rfl, rfl⟩
  | enter call now =>
      rw [TMDBCallers.step] at hstep
      split_ifs at hstep
      cases hstep
      exact enter_limits
  | wake call wakeAt now =>
      rw [TMDBCallers.step] at hstep
      split_ifs at hstep
      cases hstep
      exact ⟨rfl, rfl⟩
  | cancelWaiting call =>
      rw [TMDBCallers.step] at hstep
      by_cases hmem : call ∈ s.waiting
      · rw [if_pos hmem] at hstep
        cases hstep
        exact ⟨rfl, rfl⟩
      · rw [if_neg hmem] at hstep
        cases hstep
  | cancelSleeping call wakeAt =>
      rw [TMDBCallers.step] at hstep
      split_ifs at hstep
      cases hstep
      exact ⟨rfl, rfl⟩

/-- The limiter of a run, and what its callers keep. -/
theorem run_sound (hrun : PartialRun.exec step (fresh maxRequests timeWindow clock) before = some s) :
    s.Sound ∧ s.limiter.maxRequests = maxRequests ∧ s.limiter.timeWindow = timeWindow := by
  refine PartialRun.invariant_of_step (I := fun s => s.Sound ∧
    s.limiter.maxRequests = maxRequests ∧ s.limiter.timeWindow = timeWindow) ?_
    ⟨fresh_sound, rfl, rfl⟩ hrun
  rintro s e s' ⟨hsound, hmax, hwindow⟩ hstep
  obtain ⟨hmax', hwindow'⟩ := step_limits hstep
  exact ⟨hsound.step hstep, hmax'.trans hmax, hwindow'.trans hwindow⟩

/-- In every run, no interval of the length of the window has more than `max_requests` requests. -/
theorem requests_within_window
    (hrun : PartialRun.exec step (fresh maxRequests timeWindow clock) events = some s) (a : ℚ) :
    (s.granted.filter fun t => a ≤ t ∧ t < a + timeWindow).length ≤ maxRequests.toNat := by
  obtain ⟨hsound, rfl, rfl⟩ := run_sound hrun
  exact hsound.spaced.length_le a

/-- A caller that has the lock, or sleeps under it, is cancelled. -/
def AcquireEvent.Unlocks : AcquireEvent → Prop
  | .cancelWaiting call => call.depth ≠ 0
  | .cancelSleeping _ _ => True
  | _ => False

instance : DecidablePred AcquireEvent.Unlocks
  | .cancelWaiting _ => inferInstanceAs (Decidable (_ ≠ _))
  | .cancelSleeping _ _ => .isTrue trivial
  | .acquire | .enter _ _ | .wake _ _ _ => .isFalse not_false

/-- A full window makes the caller sleep under the lock. -/
theorem enter_of_full (h : s.Sound) (hnow : s.clock ≤ now) (hpos : 0 < s.limiter.maxRequests)
    (hfull : s.limiter.maxRequests ≤ (recent (s.limiter.timeWindow : ℚ) now s.granted).length) :
    (s.enter call now).locked = true ∧ (s.enter call now).granted = s.granted := by
  rw [← List.length_reverse, ← h.remembered_of_le hnow] at hfull
  rw [TMDBCallers.enter]
  generalize hattempt : s.limiter.attempt now = attempt
  have hcases := attempted s.limiter now
  rw [hattempt] at hcases
  cases hcases with
  | granted hfew => exact absurd hfull (not_le.mpr hfew)
  | waits seconds _ hsome hwait => exact ⟨rfl, rfl⟩
  | indexError hzero hnone => exact absurd hzero (not_le.mpr hpos)

/-- Under the lock nobody gets further. -/
theorem step_of_locked (hlocked : s.locked = true) (hkeep : ¬ AcquireEvent.Unlocks e)
    (hstep : s.step e = some s') : s'.locked = true ∧ s'.granted = s.granted := by
  cases e with
  | acquire =>
      cases hstep
      exact ⟨hlocked, rfl⟩
  | enter call now =>
      rw [TMDBCallers.step, hlocked, if_neg (by simp)] at hstep
      cases hstep
  | wake call wakeAt now =>
      rw [TMDBCallers.step] at hstep
      split_ifs at hstep
      cases hstep
      exact ⟨hlocked, rfl⟩
  | cancelWaiting call =>
      have hdepth : call.depth = 0 := not_not.mp hkeep
      rw [TMDBCallers.step, if_pos hdepth] at hstep
      split_ifs at hstep
      cases hstep
      exact ⟨hlocked, rfl⟩
  | cancelSleeping call wakeAt => exact absurd trivial hkeep

end Steps

/-- A window of one request is full, and a second caller waits for the lock. -/
def fullWindow : TMDBCallers :=
  { limiter := { maxRequests := 1, timeWindow := 10, requests := [0] }
    clock := 0
    calls := 2
    waiting := [⟨1, 0⟩]
    granted := [0] }

/-- The second caller sleeps. -/
def asleep : TMDBCallers :=
  { fullWindow with clock := 4, locked := true, waiting := [], sleeping := [(⟨1, 0⟩, 10)] }

/-- It is awake and asks again. -/
def stuck : TMDBCallers :=
  { asleep with clock := 10, calls := 3, sleeping := [], waiting := [⟨2, 0⟩, ⟨1, 1⟩] }

theorem requests_within_window_full :
    PartialRun.exec step (fresh 1 10 0) [.acquire, .enter ⟨0, 0⟩ 0, .acquire] = some fullWindow ∧
      (fullWindow.granted.filter fun t => -5 ≤ t ∧ t < -5 + ((10 : ℤ) : ℚ)).length ≤ (1 : ℤ).toNat :=
  ⟨by decide +kernel, requests_within_window
    (by decide +kernel : PartialRun.exec step (fresh 1 10 0) [.acquire, .enter ⟨0, 0⟩ 0, .acquire] =
      some fullWindow) (-5)⟩

end TMDBCallers

end SmartMedia.RateLimit
