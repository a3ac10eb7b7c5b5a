import Mathlib.Algebra.Order.Ring.Rat
import Mathlib.Data.Rat.Floor
import Mathlib.Logic.Function.Basic
import SmartMedia.Library.PartialRun
import SmartMedia.Media.Paths

/-!
# The rate limiter

`app/core/rate_limiter.py`. Moments are the values of `time.time()`, in seconds. A bucket
keeps one list of timestamps, whatever the configurations it is checked with. The history
variables `allowed` and `forgotten` list the checks of a bucket that were allowed and the
timestamps that checks have taken out of its list.
-/
namespace SmartMedia.RateLimit

structure RateLimitConfig where
  requests : ℤ
  seconds : ℤ
  blockDuration : ℤ := 60
  deriving DecidableEq, Repr

structure ClientState where
  requests : List ℚ := []
  blockedUntil : ℚ := 0
  totalRequests : ℕ := 0
  blockedCount : ℕ := 0
  deriving DecidableEq, Repr

/-- What a check returns: allowed or not, the seconds to wait and the reason. -/
structure Verdict where
  isAllowed : Bool
  retryAfter : ℤ := 0
  blockReason : Option String := none
  deriving DecidableEq, Repr

structure RateLimiter where
  defaultConfig : RateLimitConfig
  readConfig : RateLimitConfig
  clientStates : String → Option ClientState := fun _ => none
  lastCleanup : ℚ
  cleanupInterval : ℚ := 300

/-- What the limiter reads of a request. -/
structure Request where
  method : String
  apiKey : Option String := none
  authorization : Option String := none
  authCookie : Option String := none
  forwardedFor : Option String := none
  realIp : Option String := none
  clientHost : Option String := none

def safeMethods : List String := ["GET", "HEAD", "OPTIONS"]

def Request.isSafe (request : Request) : Bool := request.method.toUpper ∈ safeMethods

/-- A header or cookie that is present and not empty. -/
def given (value : Option String) : Option String := value.filter (· ≠ "")

section Buckets
variable (fingerprintToken : String → String)

/-- `_get_client_id`; `fingerprintToken` is the beginning of the token's SHA-256 digest. -/
def getClientId (request : Request) : String :=
  match given request.apiKey with
  | some apiKey => "api:" ++ apiKey
  | none =>
  match (given request.authorization).filter (·.startsWith "Bearer ") with
  | some authHeader => "user:" ++ fingerprintToken (String.ofList (authHeader.toList.drop 7))
  | none =>
  match given request.authCookie with
  | some authCookie => "user:" ++ fingerprintToken authCookie
  | none =>
  match given request.forwardedFor with
  | some forwardedFor =>
      let ip := Media.strip (forwardedFor.toList.takeWhile (· ≠ ','))
      "ip:" ++ String.ofList ip
  | none =>
  match given request.realIp with
  | some realIp => "ip:" ++ realIp
  | none =>
  match given request.clientHost with
  | some host => "ip:" ++ host
  | none => "ip:unknown"

def getClientBucket (request : Request) : String :=
  let bucket := if request.isSafe then "read" else "write"
  getClientId fingerprintToken request ++ ":" ++ bucket

end Buckets

/-- `value or default` for the arguments of `limit`. -/
def orDefault (value : Option ℤ) (default : ℤ) : ℤ :=
  match value with
  | none => default
  | some n => if n = 0 then default else n

/-- `__init__`. -/
def RateLimiter.new (defaultConfig : RateLimitConfig)
    (readRequests readSeconds readBlockDuration : Option ℤ) (now : ℚ) : RateLimiter where
  defaultConfig := defaultConfig
  readConfig := {
    requests := orDefault readRequests defaultConfig.requests
    seconds := orDefault readSeconds defaultConfig.seconds
    blockDuration := orDefault readBlockDuration defaultConfig.blockDuration }
  lastCleanup := now

/-- The configuration a route decorated with `limit` checks. -/
def RateLimiter.limitConfig (limiter : RateLimiter) (requests seconds blockDuration : Option ℤ) :
    RateLimitConfig where
  requests := orDefault requests limiter.defaultConfig.requests
  seconds := orDefault seconds limiter.defaultConfig.seconds
  blockDuration := orDefault blockDuration limiter.defaultConfig.blockDuration

def RateLimiter.getRequestConfig (limiter : RateLimiter) (request : Request) : RateLimitConfig :=
  if request.isSafe then limiter.readConfig else limiter.defaultConfig

namespace ClientState

/-- The timestamps of the bucket inside the window that `config` has at `now`. -/
def pruned (state : ClientState) (config : RateLimitConfig) (now : ℚ) : List ℚ :=
  let windowStart := now - config.seconds
  state.requests.filter (windowStart < ·)

/-- `_check_rate_limit` on the state of the bucket. -/
def check (state : ClientState) (config : RateLimitConfig) (now : ℚ) : ClientState × Verdict :=
  if now < state.blockedUntil then
    let remaining := ⌊state.blockedUntil - now⌋
    (state, ⟨false, remaining, some ("客户端已被封禁，请" ++ toString remaining ++ "秒后重试")⟩)
  else
    let requests := state.pruned config now
    if config.requests ≤ requests.length then
      ({ state with
          requests
          blockedUntil := now + config.blockDuration
          blockedCount := state.blockedCount + 1 },
        ⟨false, config.blockDuration,
          some ("请求频率超限，已被封禁" ++ toString config.blockDuration ++ "秒")⟩)
    else
      ({ state with
          requests := requests ++ [now]
          totalRequests := state.totalRequests + 1 },
        ⟨true, 0, none⟩)

end ClientState

namespace RateLimiter

/-- `_cleanup_if_needed`, with its own reading of the clock. -/
def cleanupIfNeeded (limiter : RateLimiter) (now : ℚ) : RateLimiter :=
  if now - limiter.lastCleanup < limiter.cleanupInterval then limiter
  else { limiter with
    lastCleanup := now
    clientStates := fun clientId => (limiter.clientStates clientId).filter fun state =>
      !(state.blockedUntil < now && state.requests.isEmpty) }

/-- `self._client_states[client_id]` of the `defaultdict`. -/
def state (limiter : RateLimiter) (clientId : String) : ClientState :=
  (limiter.clientStates clientId).getD {}

end RateLimiter

/-- A call of `_check_rate_limit`: the bucket of its request and the two readings of the clock. -/
structure Check where
  clientId : String
  config : RateLimitConfig
  now : ℚ
  cleanupNow : ℚ
  deriving DecidableEq, Repr

/-- What the middleware checks for a request. -/
def middlewareCheck (fingerprintToken : String → String) (limiter : RateLimiter)
    (request : Request) (now cleanupNow : ℚ) : Check where
  clientId := getClientBucket fingerprintToken request
  config := limiter.getRequestConfig request
  now := now
  cleanupNow := cleanupNow

/-- The limiter after the checks made so far, and the time of the last. -/
structure LimiterRun where
  limiter : RateLimiter
  clock : ℚ
  allowed : String → List ℚ := fun _ => []
  forgotten : String → List ℚ := fun _ => []

namespace LimiterRun

/-- The state that a check finds in its bucket. -/
def found (s : LimiterRun) (a : Check) : ClientState :=
  (s.limiter.cleanupIfNeeded a.cleanupNow).state a.clientId

def verdict (s : LimiterRun) (a : Check) : Verdict := ((s.found a).check a.config a.now).2

def isBlocked (s : LimiterRun) (a : Check) : Bool := a.now < (s.found a).blockedUntil

/-- What a check takes out of the list of its bucket. -/
def dropped (s : LimiterRun) (a : Check) : List ℚ :=
  if s.isBlocked a then []
  else (s.found a).requests.filter fun τ => !(a.now - a.config.seconds < τ)

/-- The run after a check. -/
def after (s : LimiterRun) (a : Check) : LimiterRun :=
  let limiter := s.limiter.cleanupIfNeeded a.cleanupNow
  let state := ((s.found a).check a.config a.now).1
  { limiter := { limiter with
      clientStates := Function.update limiter.clientStates a.clientId (some state) }
    clock := a.cleanupNow
    allowed := Function.update s.allowed a.clientId
      (s.allowed a.clientId ++ if (s.verdict a).isAllowed then [a.now] else [])
    forgotten := Function.update s.forgotten a.clientId (s.forgotten a.clientId ++ s.dropped a) }

/-- Time does not go back. -/
def step (s : LimiterRun) (a : Check) : Option LimiterRun :=
  if s.clock ≤ a.now ∧ a.now ≤ a.cleanupNow then some (s.after a) else none

theorem step_eq_some {s s' : LimiterRun} {a : Check} :
    s.step a = some s' ↔ (s.clock ≤ a.now ∧ a.now ≤ a.cleanupNow) ∧ s' = s.after a := by
  rw [step]
  split
  · next htime => simp [htime, eq_comm]
  · next htime => simp [htime]

end LimiterRun

end SmartMedia.RateLimit
