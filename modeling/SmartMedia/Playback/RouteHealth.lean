import Mathlib.Data.Rat.Defs
import Mathlib.Order.Basic
import SmartMedia.Library.PartialRun
import SmartMedia.Urls.Netloc

/-!
# Failures of direct playback routes

`app/services/playback_route_health_service.py`. A route is a client class and the host of a direct
URL. A call reads the clock once; the calls follow one another under the lock.
-/
namespace SmartMedia.Playback
open PythonText Strm Urls

structure RouteHealthState where
  failureCount : ℕ := 0
  stickyUntil : ℚ := 0
  lastFailureAt : ℚ := 0
  lastReason : Text := []
deriving DecidableEq

/-- The fields of the section `playback` that the policy reads. -/
structure PlaybackConfig where
  stickyDowngradeThreshold : ℤ
  stickyDowngradeTtlSec : ℤ

structure Policy where
  threshold : ℕ
  ttlSec : ℕ
deriving DecidableEq, Repr

/-- `_get_policy` -/
def getPolicy (playbackCfg : Option PlaybackConfig) : Policy where
  threshold := (playbackCfg.elim 0 (·.stickyDowngradeThreshold)).toNat
  ttlSec := (playbackCfg.elim 0 (·.stickyDowngradeTtlSec)).toNat

structure Route where
  client : Text
  host : Text
deriving DecidableEq

def Route.key (route : Route) : Text := route.client ++ "::".toList ++ route.host

section Service
variable (lowering : Lowering) (checks : NetlocChecks)

/-- The parts of the key that `_build_route_key` joins; an error is the `ValueError` of `urlparse`. -/
def buildRoute (clientClass : Text) (directUrl : Option Text) : Except String (Option Route) := do
  let client := lowering.lower (Media.strip clientClass)
  let parsed ← urlparse checks ((truthy directUrl).getD [])
  let host := lowering.lower (Media.strip ((hostname lowering parsed.netloc).getD []))
  if client = [] ∨ host = [] then return none
  return some { client, host }

/-- `_build_route_key` -/
def buildRouteKey (clientClass : Text) (directUrl : Option Text) : Except String (Option Text) := do
  return (← buildRoute lowering checks clientClass directUrl).map Route.key

structure PlaybackRouteHealthService where
  states : Text → Option RouteHealthState := fun _ => none

namespace PlaybackRouteHealthService

/-- `should_sticky_proxy`, under the lock. -/
def lookUp (service : PlaybackRouteHealthService) (routeKey : Text) (now : ℚ) :
    Bool × PlaybackRouteHealthService :=
  match service.states routeKey with
  | none => (false, service)
  | some state =>
      if now < state.stickyUntil then (true, service)
      else if state.stickyUntil ≠ 0 ∧ state.stickyUntil ≤ now then
        (false, { states := Function.update service.states routeKey none })
      else (false, service)

def shouldStickyProxy (service : PlaybackRouteHealthService) (policy : Policy) (clientClass : Text)
    (directUrl : Option Text) (now : ℚ) : Except String (Bool × PlaybackRouteHealthService) := do
  if policy.threshold ≤ 0 ∨ policy.ttlSec ≤ 0 then return (false, service)
  let some routeKey ← buildRouteKey lowering checks clientClass directUrl | return (false, service)
  return service.lookUp routeKey now

/-- The state that a failure is added to. -/
def counted (service : PlaybackRouteHealthService) (ttlSec : ℕ) (routeKey : Text) (now : ℚ) :
    RouteHealthState :=
  match service.states routeKey with
  | none => {}
  | some state =>
      if state.lastFailureAt ≠ 0 ∧ ttlSec < now - state.lastFailureAt then {} else state

/-- `record_direct_failure`, under the lock. -/
def noteFailure (service : PlaybackRouteHealthService) (policy : Policy) (routeKey reason : Text)
    (now : ℚ) : PlaybackRouteHealthService :=
  let state := service.counted policy.ttlSec routeKey now
  let failureCount := state.failureCount + 1
  let stickyUntil := if policy.threshold ≤ failureCount then now + policy.ttlSec
    else state.stickyUntil
  { states := Function.update service.states routeKey
      (some { failureCount, stickyUntil, lastFailureAt := now, lastReason := reason }) }

def recordDirectFailure (service : PlaybackRouteHealthService) (policy : Policy)
    (clientClass : Text) (directUrl : Option Text) (reason : Text) (now : ℚ) :
    Except String PlaybackRouteHealthService := do
  if policy.threshold ≤ 0 ∨ policy.ttlSec ≤ 0 then return service
  let some routeKey ← buildRouteKey lowering checks clientClass directUrl | return service
  return service.noteFailure policy routeKey reason now

end PlaybackRouteHealthService

/-- A call with the time it reads. -/
inductive Call
  | shouldStickyProxy (clientClass : Text) (directUrl : Option Text) (now : ℚ)
  | recordDirectFailure (clientClass : Text) (directUrl : Option Text) (reason : Text) (now : ℚ)

def Call.now : Call → ℚ
  | .shouldStickyProxy _ _ now => now
  | .recordDirectFailure _ _ _ now => now

/-- The service and the latest time it has seen. -/
structure HealthRun where
  service : PlaybackRouteHealthService
  clock : ℚ

/-- A call that raises leaves the service as it is. -/
def HealthRun.after (policy : Policy) (s : HealthRun) : Call → PlaybackRouteHealthService
  | .shouldStickyProxy clientClass directUrl now =>
      match s.service.shouldStickyProxy lowering checks policy clientClass directUrl now with
      | .ok (_, service) => service
      | .error _ => s.service
  | .recordDirectFailure clientClass directUrl reason now =>
      match s.service.recordDirectFailure lowering checks policy clientClass directUrl reason now with
      | .ok service => service
      | .error _ => s.service

/-- Time does not go back. -/
def HealthRun.step (policy : Policy) (s : HealthRun) (call : Call) : Option HealthRun :=
  if s.clock ≤ call.now then
    some { service := s.after lowering checks policy call, clock := call.now }
  else none

end Service

end SmartMedia.Playback
