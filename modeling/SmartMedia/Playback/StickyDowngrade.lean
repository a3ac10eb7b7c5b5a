import Mathlib.Algebra.Order.Ring.Rat
import SmartMedia.Library.GapRuns
import SmartMedia.Playback.RouteHealth

/-!
# The sticky downgrade and its definition

The service counts failures and forgets them, when a query finds a block that is over and when the
next failure comes late. The definition looks at the recorded failures alone.
-/
namespace SmartMedia.Playback
open PythonText Strm GapRuns

section Histories
variable (lowering : Lowering) (checks : NetlocChecks)

def routeOf (clientClass : Text) (directUrl : Option Text) : Option Route :=
  (buildRoute lowering checks clientClass directUrl).toOption.join

def Call.failureOf (route : Route) : Call → Option ℚ
  | .shouldStickyProxy _ _ _ => none
  | .recordDirectFailure clientClass directUrl _ now =>
      if routeOf lowering checks clientClass directUrl = some route then some now else none

/-- When a route failed, the latest time first. -/
def failures (calls : List Call) (route : Route) : List ℚ :=
  (calls.filterMap (Call.failureOf lowering checks route)).reverse

def Call.isFailure : Call → Bool
  | .shouldStickyProxy _ _ _ => false
  | .recordDirectFailure _ _ _ _ => true

/-- No failure of another route is kept under the key. -/
def Alone (calls : List Call) (route : Route) : Prop :=
  ∀ route', route'.key = route.key → failures lowering checks calls route' ≠ [] → route' = route

/-- A failure finds the state of the run that it continues, and no other: no query has dropped it at
the very end of its block, and it is not kept since a failure at time zero. -/
def Resumes (policy : Policy) (times : List ℚ) (now : ℚ) : Option RouteHealthState → Prop
  | none => ∀ f ∈ times, policy.ttlSec < now - f
  | some state => state.lastFailureAt = 0 → now ≤ policy.ttlSec

def GoesOn (policy : Policy) (calls : List Call) (s : HealthRun) : Call → Prop
  | .shouldStickyProxy _ _ _ => True
  | .recordDirectFailure clientClass directUrl _ now =>
      ∀ route, routeOf lowering checks clientClass directUrl = some route →
        policy.threshold = 1 ∨
          Resumes policy (failures lowering checks calls route) now (s.service.states route.key)

/-- A run from the fresh service, and a query at its end, that meet none of the exceptions. -/
structure Undisturbed (policy : Policy) (start : ℚ) (calls : List Call) (s : HealthRun)
    (clientClass : Text) (directUrl : Option Text) (now : ℚ) : Prop where
  run : PartialRun.exec (HealthRun.step lowering checks policy) ⟨{}, start⟩ calls = some s
  later : s.clock ≤ now
  goesOn : ∀ pre call post, calls = pre ++ call :: post → ∀ u,
    PartialRun.exec (HealthRun.step lowering checks policy) ⟨{}, start⟩ pre = some u →
      GoesOn lowering checks policy pre u call
  alone : ∀ route, routeOf lowering checks clientClass directUrl = some route →
    Alone lowering checks calls route
  counting : ∀ route, routeOf lowering checks clientClass directUrl = some route →
    ∀ state, s.service.states route.key = some state → state.failureCount < policy.threshold →
      0 ≤ now

end Histories

/-- What a kept state says of the failures. -/
structure Counts (policy : Policy) (times : List ℚ) (state : RouteHealthState) : Prop where
  latest : times.head? = some state.lastFailureAt
  count : state.failureCount = runLength (policy.ttlSec : ℚ) times ∨
    policy.threshold = 1 ∧ 1 ≤ state.failureCount
  stickyUntil : state.stickyUntil =
    if policy.threshold ≤ state.failureCount then state.lastFailureAt + policy.ttlSec else 0

/-- What the entry under a key says of the failures. -/
def Tracks (policy : Policy) (clock : ℚ) (times : List ℚ) : Option RouteHealthState → Prop
  | none => ∀ f ∈ times, f + policy.ttlSec ≤ clock
  | some state => Counts policy times state

section Steps
variable {policy : Policy} {clock now : ℚ} {times : List ℚ} {state : RouteHealthState}
  {entry : Option RouteHealthState} {service : PlaybackRouteHealthService} {key reason : Text}

theorem Counts.times_eq (h : Counts policy times state) :
    ∃ earlier, times = state.lastFailureAt :: earlier := by
  cases times with
  | nil => cases h.latest
  | cons f earlier =>
      obtain rfl := Option.some.inj h.latest
      exact ⟨earlier, rfl⟩

theorem Tracks.mono (h : Tracks policy clock times entry) (hclock : clock ≤ now) :
    Tracks policy now times entry := by
  cases entry with
  | none => exact fun f hf => (h f hf).trans hclock
  | some state => exact h

/-- A query answers by the failures. -/
theorem lookUp_iff (hn : 1 ≤ policy.threshold) (h : Tracks policy now times (service.states key))
    (hsorted : times.Pairwise (· ≥ ·)) (hbefore : ∀ f ∈ times, f ≤ now)
    (hcounting : ∀ state, service.states key = some state →
      state.failureCount < policy.threshold → 0 ≤ now) :
    (service.lookUp key now).1 = true ↔ Sticky policy.threshold (policy.ttlSec : ℚ) times now := by
  rw [PlaybackRouteHealthService.lookUp]
  cases hentry : service.states key with
  | none =>
      rw [hentry] at h
      exact iff_of_false Bool.false_ne_true (not_sticky_of_over h)
  | some state =>
      rw [hentry] at h
      obtain ⟨earlier, rfl⟩ := h.times_eq
      rw [sticky_cons_iff hn hsorted (hbefore _ List.mem_cons_self)]
      have hanswer : ∀ b : Bool, (if now < state.stickyUntil then (true, service)
          else if state.stickyUntil ≠ 0 ∧ state.stickyUntil ≤ now then
            (false, { states := Function.update service.states key none })
          else (false, service)).1 = b ↔ decide (now < state.stickyUntil) = b := by
        intro b
        split_ifs with huntil
        · rw [decide_eq_true huntil]
        · rw [decide_eq_false huntil]
        · rw [decide_eq_false huntil]
      dsimp only
      rw [hanswer, decide_eq_true_iff, h.stickyUntil]
      split_ifs with hcount
      · refine ⟨fun hlast => ⟨?_, hlast⟩, And.right⟩
        rcases h.count with heq | ⟨hone, -⟩
        · exact heq ▸ hcount
        · exact hone.trans_le (runLength_pos _ _)
      · have hpositive := hcounting state hentry (not_le.mp hcount)
        refine iff_of_false (not_lt.mpr hpositive) ?_
        rintro ⟨hlength, -⟩
        rcases h.count with heq | ⟨hone, hcounted⟩
        · exact hcount (heq ▸ hlength)
        · exact hcount (hone ▸ hcounted)

/-- A query drops only the state of a block that is over. -/
theorem Tracks.lookUp (h : Tracks policy now times (service.states key))
    (hsorted : times.Pairwise (· ≥ ·)) :
    Tracks policy now times ((service.lookUp key now).2.states key) := by
  rw [PlaybackRouteHealthService.lookUp]
  cases hentry : service.states key with
  | none =>
      dsimp only
      rw [hentry] at h ⊢
      exact h
  | some state =>
      dsimp only
      rw [hentry] at h
      split_ifs with huntil hover
      · rw [hentry]
        exact h
      · dsimp only
        rw [Function.update_self]
        obtain ⟨earlier, rfl⟩ := h.times_eq
        have hend := h.stickyUntil
        split_ifs at hend with hcount
        · intro f hf
          have hle : f ≤ state.lastFailureAt := by
            rcases List.mem_cons.mp hf with rfl | hmem
            · exact le_rfl
            · exact List.rel_of_pairwise_cons hsorted hmem
          exact (add_le_add_left hle _).trans (hend ▸ hover.2)
        · exact absurd hend hover.1
      · rw [hentry]
        exact h

/-- The state that a failure is added to has counted the run that the failure continues. -/
theorem counted_spec (h : Tracks policy now times (service.states key))
    (hgoes : policy.threshold = 1 ∨ Resumes policy times now (service.states key)) :
    ((service.counted policy.ttlSec key now).failureCount + 1 =
        runLength (policy.ttlSec : ℚ) (now :: times) ∨ policy.threshold = 1) ∧
      (¬ policy.threshold ≤ (service.counted policy.ttlSec key now).failureCount →
        (service.counted policy.ttlSec key now).stickyUntil = 0) := by
  rw [PlaybackRouteHealthService.counted]
  cases hentry : service.states key with
  | none =>
      rw [hentry] at hgoes
      refine ⟨hgoes.symm.imp_left ?_, fun _ => rfl⟩
      intro hgap
      exact (runLength_cons_of_gap fun f hf => hgap f (List.mem_of_mem_head? hf)).symm
  | some state =>
      rw [hentry] at h hgoes
      obtain ⟨earlier, rfl⟩ := h.times_eq
      dsimp only
      split_ifs with hlate
      · refine ⟨.inl (runLength_cons_of_gap ?_).symm, fun _ => rfl⟩
        rintro f ⟨rfl⟩
        exact hlate.2
      · refine ⟨?_, fun hfew => h.stickyUntil.trans (if_neg hfew)⟩
        rcases h.count with heq | ⟨hone, -⟩
        · refine hgoes.symm.imp_left fun hzero => ?_
          rw [runLength_cons_of_close, heq]
          -- a late failure is not added, unless the time of the last one is zero
          by_contra hgap
          rw [not_le] at hgap
          have hlast : state.lastFailureAt = 0 := by
            by_contra hne
            exact hlate ⟨hne, hgap⟩
          rw [hlast, sub_zero] at hgap
          exact absurd (hzero hlast) (not_le.mpr hgap)
        · exact .inr hone

/-- A failure is counted. -/
theorem Tracks.noteFailure (h : Tracks policy now times (service.states key))
    (hgoes : policy.threshold = 1 ∨ Resumes policy times now (service.states key)) :
    Tracks policy now (now :: times) ((service.noteFailure policy key reason now).states key) := by
  obtain ⟨hcount, hfew⟩ := counted_spec h hgoes
  rw [PlaybackRouteHealthService.noteFailure]
  dsimp only
  rw [Function.update_self]
  refine ⟨rfl, hcount.imp_right fun hone => ⟨hone, Nat.le_add_left 1 _⟩, ?_⟩
  dsimp only
  split_ifs with hmany
  · rfl
  · exact hfew fun hearlier => hmany (hearlier.trans (Nat.le_succ _))

end Steps

section Runs
variable {lowering : Lowering} {checks : NetlocChecks} {policy : Policy} {calls : List Call}
  {call : Call} {s s' : HealthRun} {start now : ℚ} {clientClass : Text} {directUrl : Option Text}
  {route : Route}

theorem routeOf_eq_some : routeOf lowering checks clientClass directUrl = some route ↔
    buildRoute lowering checks clientClass directUrl = .ok (some route) := by
  rw [routeOf]
  cases buildRoute lowering checks clientClass directUrl with
  | error e => simp [Except.toOption]
  | ok found => simp [Except.toOption]

theorem shouldStickyProxy_eq (hn : 1 ≤ policy.threshold) (hT : 1 ≤ policy.ttlSec)
    (service : PlaybackRouteHealthService) :
    service.shouldStickyProxy lowering checks policy clientClass directUrl now =
      (buildRoute lowering checks clientClass directUrl).map fun found =>
        found.elim (false, service) fun route => service.lookUp route.key now := by
  rw [PlaybackRouteHealthService.shouldStickyProxy, if_neg (by omega), buildRouteKey]
  cases buildRoute lowering checks clientClass directUrl with
  | error e => rfl
  | ok found => cases found <;> rfl

theorem after_query (hn : 1 ≤ policy.threshold) (hT : 1 ≤ policy.ttlSec) :
    s.after lowering checks policy (.shouldStickyProxy clientClass directUrl now) =
      (routeOf lowering checks clientClass directUrl).elim s.service
        fun route => (s.service.lookUp route.key now).2 := by
  rw [HealthRun.after, shouldStickyProxy_eq hn hT, routeOf]
  cases buildRoute lowering checks clientClass directUrl with
  | error e => rfl
  | ok found => cases found <;> rfl

theorem after_failure (hn : 1 ≤ policy.threshold) (hT : 1 ≤ policy.ttlSec) (reason : Text) :
    s.after lowering checks policy (.recordDirectFailure clientClass directUrl reason now) =
      (routeOf lowering checks clientClass directUrl).elim s.service
        fun route => s.service.noteFailure policy route.key reason now := by
  rw [HealthRun.after, PlaybackRouteHealthService.recordDirectFailure, if_neg (by omega),
    buildRouteKey, routeOf]
  cases buildRoute lowering checks clientClass directUrl with
  | error e => rfl
  | ok found => cases found <;> rfl

theorem failures_append (route : Route) : failures lowering checks (calls ++ [call]) route =
    (call.failureOf lowering checks route).toList ++ failures lowering checks calls route := by
  rw [failures, List.filterMap_append, List.reverse_append, failures]
  cases hfailure : call.failureOf lowering checks route <;> simp [hfailure]

/-- Queries are no part of what the definition looks at. -/
theorem failures_filter (calls : List Call) (route : Route) :
    failures lowering checks (calls.filter Call.isFailure) route =
      failures lowering checks calls route := by
  rw [failures, failures, List.filterMap_filter]
  congr 1
  apply List.filterMap_congr
  intro call _
  cases call <;> rfl

/-- A lookup and a recorded failure touch one key. -/
theorem lookUp_states_of_ne {service : PlaybackRouteHealthService} {key key' : Text}
    (h : key' ≠ key) : (service.lookUp key now).2.states key' = service.states key' := by
  rw [PlaybackRouteHealthService.lookUp]
  split
  · rfl
  · split_ifs
    · rfl
    · exact Function.update_of_ne h _ _
    · rfl

theorem noteFailure_states_of_ne {service : PlaybackRouteHealthService} {key key' reason : Text}
    (h : key' ≠ key) :
    (service.noteFailure policy key reason now).states key' = service.states key' := by
  rw [PlaybackRouteHealthService.noteFailure]
  exact Function.update_of_ne h _ _

/-- The failures so far are in order, and the entries say what the definition needs of them. -/
structure Follows (lowering : Lowering) (checks : NetlocChecks) (policy : Policy)
    (calls : List Call) (s : HealthRun) : Prop where
  past : ∀ route, ∀ f ∈ failures lowering checks calls route, f ≤ s.clock
  sorted : ∀ route, (failures lowering checks calls route).Pairwise (· ≥ ·)
  tracks : ∀ route, Alone lowering checks calls route →
    Tracks policy s.clock (failures lowering checks calls route) (s.service.states route.key)

theorem Alone.before (h : Alone lowering checks (calls ++ [call]) route) :
    Alone lowering checks calls route := by
  intro route' hkey hfailed
  refine h route' hkey ?_
  rw [failures_append]
  exact List.append_ne_nil_of_right_ne_nil _ hfailed

theorem Follows.query (h : Follows lowering checks policy calls s) (hn : 1 ≤ policy.threshold)
    (hT : 1 ≤ policy.ttlSec) (hclock : s.clock ≤ now) :
    Follows lowering checks policy (calls ++ [.shouldStickyProxy clientClass directUrl now])
      ⟨s.after lowering checks policy (.shouldStickyProxy clientClass directUrl now), now⟩ := by
  have hsame : ∀ route, failures lowering checks
      (calls ++ [.shouldStickyProxy clientClass directUrl now]) route =
        failures lowering checks calls route := fun route => failures_append route
  constructor
  · intro route f hf
    exact (h.past route f (hsame route ▸ hf)).trans hclock
  · intro route
    rw [hsame]
    exact h.sorted route
  · intro route halone
    have htracks := (h.tracks route halone.before).mono hclock
    rw [hsame, after_query hn hT]
    dsimp only
    cases routeOf lowering checks clientClass directUrl with
    | none => exact htracks
    | some asked =>
        rw [Option.elim_some]
        by_cases hkey : route.key = asked.key
        · rw [← hkey]
          exact htracks.lookUp (h.sorted route)
        · rw [lookUp_states_of_ne hkey]
          exact htracks

theorem Follows.failure (h : Follows lowering checks policy calls s) (hn : 1 ≤ policy.threshold)
    (hT : 1 ≤ policy.ttlSec) (hclock : s.clock ≤ now) {reason : Text}
    (hgoes : GoesOn lowering checks policy calls s
      (.recordDirectFailure clientClass directUrl reason now)) :
    Follows lowering checks policy (calls ++ [.recordDirectFailure clientClass directUrl reason now])
      ⟨s.after lowering checks policy (.recordDirectFailure clientClass directUrl reason now), now⟩ := by
  have hfailures : ∀ route, failures lowering checks
      (calls ++ [.recordDirectFailure clientClass directUrl reason now]) route =
        if routeOf lowering checks clientClass directUrl = some route then
          now :: failures lowering checks calls route
        else failures lowering checks calls route := by
    intro route
    rw [failures_append, Call.failureOf]
    split_ifs <;> rfl
  have hpast : ∀ route, ∀ f ∈ failures lowering checks calls route, f ≤ now :=
    fun route f hf => (h.past route f hf).trans hclock
  constructor
  · intro route f hf
    rw [hfailures] at hf
    split_ifs at hf
    · rcases List.mem_cons.mp hf with rfl | hmem
      · exact le_rfl
      · exact hpast route f hmem
    · exact hpast route f hf
  · intro route
    rw [hfailures]
    split_ifs
    · exact List.pairwise_cons.mpr ⟨hpast route, h.sorted route⟩
    · exact h.sorted route
  · intro route halone
    have htracks := (h.tracks route halone.before).mono hclock
    have hsole := halone
    rw [hfailures, after_failure hn hT]
    dsimp only
    cases hroute : routeOf lowering checks clientClass directUrl with
    | none =>
        rw [if_neg (Option.some_ne_none route).symm]
        exact htracks
    | some failed =>
        rw [Option.elim_some]
        by_cases hkey : route.key = failed.key
        · obtain rfl : failed = route := by
            apply hsole failed hkey.symm
            rw [hfailures, if_pos hroute]
            exact List.cons_ne_nil _ _
          rw [if_pos rfl]
          exact htracks.noteFailure (hgoes failed hroute)
        · rw [noteFailure_states_of_ne hkey, if_neg]
          · exact htracks
          · rintro ⟨⟩
            exact hkey rfl

theorem Follows.step (h : Follows lowering checks policy calls s) (hn : 1 ≤ policy.threshold)
    (hT : 1 ≤ policy.ttlSec) (hgoes : GoesOn lowering checks policy calls s call)
    (hstep : s.step lowering checks policy call = some s') :
    Follows lowering checks policy (calls ++ [call]) s' := by
  rw [HealthRun.step] at hstep
  split_ifs at hstep with hclock
  obtain rfl := Option.some.inj hstep
  cases call with
  | shouldStickyProxy clientClass directUrl now => exact h.query hn hT hclock
  | recordDirectFailure clientClass directUrl reason now => exact h.failure hn hT hclock hgoes

theorem follows_fresh (start : ℚ) : Follows lowering checks policy [] ⟨{}, start⟩ where
  past := by simp [failures]
  sorted := by simp [failures]
  tracks := by simp [failures, Tracks]

theorem Undisturbed.follows (h : Undisturbed lowering checks policy start calls s clientClass directUrl now)
    (hn : 1 ≤ policy.threshold) (hT : 1 ≤ policy.ttlSec) :
    Follows lowering checks policy calls s :=
  PartialRun.invariant_of_history (fun _ _ _ _ hfollows hgoes hstep => hfollows.step hn hT hgoes hstep)
    (follows_fresh start) h.goesOn h.run

/-- A query of an undisturbed run answers by the definition. -/
theorem Undisturbed.answer_iff
    (h : Undisturbed lowering checks policy start calls s clientClass directUrl now)
    (hn : 1 ≤ policy.threshold) (hT : 1 ≤ policy.ttlSec) :
    (s.service.shouldStickyProxy lowering checks policy clientClass directUrl now).map Prod.fst =
        .ok true ↔
      ∃ route, routeOf lowering checks clientClass directUrl = some route ∧
        Sticky policy.threshold (policy.ttlSec : ℚ) (failures lowering checks calls route) now := by
  have hfollows := h.follows hn hT
  have hquery : ∀ route, routeOf lowering checks clientClass directUrl = some route →
      ((s.service.lookUp route.key now).1 = true ↔
        Sticky policy.threshold (policy.ttlSec : ℚ) (failures lowering checks calls route) now) := by
    intro route hroute
    have htracks := (hfollows.tracks route (h.alone route hroute)).mono h.later
    have hpast : ∀ f ∈ failures lowering checks calls route, f ≤ now :=
      fun f hf => (hfollows.past route f hf).trans h.later
    exact lookUp_iff hn htracks (hfollows.sorted route) hpast (h.counting route hroute)
  rw [shouldStickyProxy_eq hn hT]
  constructor
  · intro hanswer
    cases hbuilt : buildRoute lowering checks clientClass directUrl with
    | error e =>
        rw [hbuilt] at hanswer
        cases hanswer
    | ok found =>
        rw [hbuilt] at hanswer
        cases found with
        | none => cases Except.ok.inj hanswer
        | some route =>
            have hroute := routeOf_eq_some.mpr hbuilt
            exact ⟨route, hroute, (hquery route hroute).mp (Except.ok.inj hanswer)⟩
  · rintro ⟨route, hroute, hsticky⟩
    rw [routeOf_eq_some.mp hroute]
    exact congrArg Except.ok ((hquery route hroute).mpr hsticky)

/-- A query that raises does so whatever was called before. -/
theorem answer_eq_error (hn : 1 ≤ policy.threshold) (hT : 1 ≤ policy.ttlSec)
    (service service' : PlaybackRouteHealthService)
    (h : (service.shouldStickyProxy lowering checks policy clientClass directUrl now).map Prod.fst =
        .ok true ↔
      (service'.shouldStickyProxy lowering checks policy clientClass directUrl now).map Prod.fst =
        .ok true) :
    (service.shouldStickyProxy lowering checks policy clientClass directUrl now).map Prod.fst =
      (service'.shouldStickyProxy lowering checks policy clientClass directUrl now).map Prod.fst := by
  rw [shouldStickyProxy_eq hn hT, shouldStickyProxy_eq hn hT] at h ⊢
  cases hbuilt : buildRoute lowering checks clientClass directUrl with
  | error e => rfl
  | ok found =>
      rw [hbuilt] at h
      simp only [Except.map, Except.ok.injEq] at h
      exact congrArg Except.ok (Bool.eq_iff_iff.mpr h)

/-- The sticky downgrade follows its definition on undisturbed runs, and there the queries before an
answer make no difference to it. -/
theorem shouldStickyProxy_follows (hn : 1 ≤ policy.threshold) (hT : 1 ≤ policy.ttlSec)
    (h : Undisturbed lowering checks policy start calls s clientClass directUrl now) :
    ((s.service.shouldStickyProxy lowering checks policy clientClass directUrl now).map Prod.fst =
        .ok true ↔
      ∃ route, routeOf lowering checks clientClass directUrl = some route ∧
        Sticky policy.threshold (policy.ttlSec : ℚ) (failures lowering checks calls route) now) ∧
      ∀ start' calls' s',
        Undisturbed lowering checks policy start' calls' s' clientClass directUrl now →
          calls'.filter Call.isFailure = calls.filter Call.isFailure →
            (s'.service.shouldStickyProxy lowering checks policy clientClass directUrl now).map
                Prod.fst =
              (s.service.shouldStickyProxy lowering checks policy clientClass directUrl now).map
                Prod.fst := by
  refine ⟨h.answer_iff hn hT, ?_⟩
  intro start' calls' s' h' hsame
  apply answer_eq_error hn hT
  rw [h.answer_iff hn hT, h'.answer_iff hn hT]
  have hfailures : ∀ route, failures lowering checks calls' route =
      failures lowering checks calls route := by
    intro route
    rw [← failures_filter calls' route, hsame, failures_filter]
  exact exists_congr fun route => by rw [hfailures]

end Runs

section Examples

def unchecked : NetlocChecks := ⟨fun _ => none, fun _ => none⟩

def cdn : Option Text := some "http://cdn/f".toList

def failedAt (now : ℚ) : Call := .recordDirectFailure "web".toList cdn [] now

def askedAt (now : ℚ) : Call := .shouldStickyProxy "web".toList cdn now

theorem routeOf_cdn : routeOf .ascii unchecked "web".toList cdn =
    some ⟨"web".toList, "cdn".toList⟩ := by decide

theorem failureOf_failedAt (route : Route) (now : ℚ) :
    (failedAt now).failureOf .ascii unchecked route =
      if (⟨"web".toList, "cdn".toList⟩ : Route) = route then some now else none := by
  rw [failedAt, Call.failureOf, routeOf_cdn]
  simp only [Option.some.injEq]

/-- The service after two failures and a query between them. -/
def servedPair : HealthRun :=
  (PartialRun.exec (HealthRun.step .ascii unchecked ⟨2, 10⟩) ⟨{}, 0⟩
    [failedAt 1, askedAt 2, failedAt 3]).getD ⟨{}, 0⟩

theorem undisturbed_pair :
    Undisturbed .ascii unchecked ⟨2, 10⟩ 0 [failedAt 1, askedAt 2, failedAt 3] servedPair
      "web".toList cdn 12 where
  run := rfl
  later := by decide +kernel
  goesOn := by
    intro pre call post hsplit u hu
    cases pre with
    | nil =>
        obtain ⟨rfl, -⟩ := List.cons.inj hsplit
        obtain rfl := Option.some.inj hu
        intro route _
        exact .inr fun f hf => absurd hf List.not_mem_nil
    | cons first pre =>
        obtain ⟨rfl, htail⟩ := List.cons.inj hsplit
        cases pre with
        | nil =>
            obtain ⟨rfl, -⟩ := List.cons.inj htail
            trivial
        | cons second pre =>
            obtain ⟨rfl, hlast⟩ := List.cons.inj htail
            cases pre with
            | nil =>
                obtain ⟨rfl, -⟩ := List.cons.inj hlast
                intro route hroute
                obtain rfl := Option.some.inj (routeOf_cdn.symm.trans hroute)
                have hstate : u.service.states "web::cdn".toList = some ⟨1, 0, 1, []⟩ := by
                  rw [← Option.some.inj hu]
                  decide +kernel
                right
                rw [show Route.key ⟨"web".toList, "cdn".toList⟩ = "web::cdn".toList by decide, hstate]
                exact fun hzero => absurd hzero one_ne_zero
            | cons third pre => cases pre <;> cases hlast
  alone := by
    intro route hroute route' _ hfailed
    obtain rfl := Option.some.inj (routeOf_cdn.symm.trans hroute)
    by_contra hne
    apply hfailed
    rw [failures, List.filterMap_cons, List.filterMap_cons, List.filterMap_cons,
      failureOf_failedAt, failureOf_failedAt, if_neg (Ne.symm hne), if_neg (Ne.symm hne)]
    rfl
  counting := fun _ _ _ _ _ => by decide +kernel

theorem shouldStickyProxy_pair :
    ((servedPair.service.shouldStickyProxy .ascii unchecked ⟨2, 10⟩ "web".toList cdn 12).map
        Prod.fst = .ok true ↔
      ∃ route, routeOf .ascii unchecked "web".toList cdn = some route ∧
        Sticky 2 ((10 : ℕ) : ℚ)
          (failures .ascii unchecked [failedAt 1, askedAt 2, failedAt 3] route) 12) :=
  (shouldStickyProxy_follows (by decide) (by decide) undisturbed_pair).1

/-- The query at `12` drops the state of a block that ends there; the failure at `12` goes on with the
run and counts as the first of one. Without the query the answer is another one. -/
theorem query_disturbs :
    ∃ s s', PartialRun.exec (HealthRun.step .ascii unchecked ⟨2, 10⟩) ⟨{}, 0⟩
        [failedAt 1, failedAt 2, askedAt 12, failedAt 12] = some s ∧
      PartialRun.exec (HealthRun.step .ascii unchecked ⟨2, 10⟩) ⟨{}, 0⟩
        [failedAt 1, failedAt 2, failedAt 12] = some s' ∧
      (s.service.shouldStickyProxy .ascii unchecked ⟨2, 10⟩ "web".toList cdn 12).map Prod.fst =
        .ok false ∧
      (s'.service.shouldStickyProxy .ascii unchecked ⟨2, 10⟩ "web".toList cdn 12).map Prod.fst =
        .ok true ∧
      Sticky 2 (10 : ℚ) (failures .ascii unchecked
        [failedAt 1, failedAt 2, askedAt 12, failedAt 12] ⟨"web".toList, "cdn".toList⟩) 12 := by
  refine ⟨_, _, rfl, rfl, by decide +kernel, by decide +kernel, ?_⟩
  have htimes : failures .ascii unchecked [failedAt 1, failedAt 2, askedAt 12, failedAt 12]
      ⟨"web".toList, "cdn".toList⟩ = [12, 2, 1] := by
    decide +kernel
  rw [htimes, sticky_iff (by decide)]
  exact ⟨12, [2, 1], List.suffix_rfl, by decide +kernel, by decide +kernel⟩

end Examples

end SmartMedia.Playback
