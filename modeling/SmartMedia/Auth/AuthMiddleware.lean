import SmartMedia.Library.PercentEncoding
import SmartMedia.Media.MediaParser
import SmartMedia.Urls.SplitUrl

/-!
# What the middleware lets through

`AuthMiddleware` of `app/core/auth_middleware.py`, with `app/core/auth_contract.py` and
`app/core/emby_proxy_request.py`. Whether a token belongs to an active user and whether an
administrator exists are arguments here.
-/
namespace SmartMedia.Auth
open PythonText Strm Urls

/-- The environment and the configuration: the section `security` with the key and whether it is
required, and the base of the proxy for Emby. -/
structure AuthSettings where
  env : String → Option Text := fun _ => none
  security : Option (Text × Bool) := none
  proxyBaseUrl : Text := []
  lowering : Lowering := .ascii
  checks : NetlocChecks

/-- What is read of a request. `netloc` is that of its URL. -/
structure Request where
  path : Text
  scheme : Text := "http".toList
  netloc : Text := []
  host : Option Text := none
  client : Option Text := none
  xApiKey : Option Text := none
  authorization : Option Text := none
  authToken : Option Text := none
  deriving DecidableEq, Repr

/-- A text that is there and not empty. -/
def given (text : Option Text) : Option Text := text.filter (· ≠ [])

def apiKeyEnvPriority : List String :=
  ["SMART_MEDIA_SECURITY_API_KEY", "SMART_MEDIA_API_KEY", "API_KEY"]

def truthyValues : List Text := ["true", "1", "yes"].map String.toList

def falsyValues : List Text := ["false", "0", "no"].map String.toList

def embyProxyPrefixes : List Text :=
  ["/emby", "/items", "/users", "/videos", "/audio", "/system", "/sessions", "/embywebsocket"].map
    String.toList

def apiEmbyPrefixes : List Text :=
  (embyProxyPrefixes.filter (· ≠ "/emby".toList)).map ("/api/emby".toList ++ ·)

def publicPaths : List Text :=
  ["/", "/health", "/health/live", "/health/ready", "/ready", "/docs", "/redoc", "/openapi.json"].map
    String.toList

def authPublicPaths : List Text :=
  ["/api/auth/login", "/api/auth/refresh", "/api/auth/status", "/api/auth/verify"].map String.toList

def publicPrefixes : List Text :=
  ["/static/", "/web/", "/api/proxy/stream/", "/api/proxy/redirect/", "/api/proxy/transcoding/"].map
    String.toList

/-- `secrets.compare_digest`; texts outside of ASCII raise. -/
def compareDigest (a b : Text) : Option Bool :=
  if a.all PercentEncoding.isAscii && b.all PercentEncoding.isAscii then some (a = b) else none

def bearer (lowering : Lowering) (authorization : Text) : Option Text :=
  match Media.MediaParser.splitWords authorization with
  | [scheme, token] =>
      if lowering.lower scheme = "bearer".toList then some (Media.strip token) else none
  | _ => none

/-- Headers come before the cookie. -/
def Request.extractApiKey (request : Request) (lowering : Lowering) : Option Text :=
  match given request.xApiKey with
  | some key => some (Media.strip key)
  | none =>
      ((given request.authorization).bind (bearer lowering)).or
        ((given request.authToken).map Media.strip)

/-- The host and the port of a location, without a port where it is not a number. -/
def hostPort (lowering : Lowering) (scheme netloc : Text) : Text × ℕ :=
  match hostname lowering netloc, port? netloc with
  | some host, some (some (port + 1)) => (lowering.lower host, port + 1)
  | some host, some _ => (lowering.lower host, if scheme = "https".toList then 443 else 80)
  | _, _ => ([], 0)

namespace AuthSettings

/-- `parse_host_port`; no value stands for the `ValueError` of `urlparse`. -/
def parseHostPort (settings : AuthSettings) (urlOrHost schemeHint : Text) : Option (Text × ℕ) :=
  let text := Media.strip urlOrHost
  if text = [] then some ([], 0)
  else
    let text := if "://".toList <:+: text then text else schemeHint ++ "://".toList ++ text
    (urlsplit settings.checks text).map fun parsed =>
      hostPort settings.lowering parsed.scheme parsed.netloc

def requestHostPort (settings : AuthSettings) (request : Request) : Option (Text × ℕ) :=
  let hostHeader := Media.strip (request.host.getD [])
  if hostHeader = [] then some (hostPort settings.lowering request.scheme request.netloc)
  else settings.parseHostPort hostHeader request.scheme

def isEmbyProxyPath (lowering : Lowering) (path : Text) : Bool :=
  let normalized := if Media.strip path = [] then "/".toList else Media.strip path
  let lowered := lowering.lower normalized
  normalized = "/".toList || embyProxyPrefixes.any (·.isPrefixOf lowered) ||
    apiEmbyPrefixes.any (·.isPrefixOf lowered)

/-- An error in the configured base is no dedicated request, one in the header `Host` is raised. -/
def isDedicatedEmbyProxyRequest (settings : AuthSettings) (request : Request) : Option Bool :=
  if isEmbyProxyPath settings.lowering request.path then
    (settings.requestHostPort request).map fun (host, port) =>
      if host = [] then false
      else if port = 18097 then true
      else
        Media.strip settings.proxyBaseUrl ≠ [] &&
          settings.parseHostPort (Media.strip settings.proxyBaseUrl) request.scheme =
            some (host, port)
  else some false

/-- `resolve_auth_configuration`: the expected key, and whether it is required. -/
def resolve (settings : AuthSettings) : Option Text × Bool :=
  let override := apiKeyEnvPriority.findSome? fun name => given (settings.env name)
  let expected := override.or (settings.security.bind fun security => given (some security.1))
  let raw := settings.lowering.lower (Media.strip ((settings.env "REQUIRE_API_KEY").getD []))
  if raw ∈ truthyValues then (expected, true)
  else if raw ∈ falsyValues then (expected, false)
  else if expected.isSome then (expected, true)
  else (expected, settings.security.any (·.2))

end AuthSettings

/-- An administrator can be made once, from the machine itself. -/
def Request.canBootstrap (request : Request) (adminExists : Bool) : Bool :=
  !adminExists && ["127.0.0.1", "::1", "localhost"].any (·.toList = request.client.getD [])

def AuthSettings.isPublicPath (settings : AuthSettings) (adminExists : Bool) (request : Request) :
    Option Bool :=
  (settings.isDedicatedEmbyProxyRequest request).map fun dedicated =>
    dedicated || publicPaths.contains request.path || authPublicPaths.contains request.path ||
      publicPrefixes.any (·.isPrefixOf request.path) ||
      (request.path = "/api/auth/init-admin".toList && request.canBootstrap adminExists)

inductive Verdict where
  | passed
  | refused (status : ℕ) (detail : String)
  | raised
  deriving DecidableEq, Repr

/-- `dispatch`, up to the handler; `validate` is `_validate_jwt_token`. -/
def AuthSettings.dispatch (settings : AuthSettings) (adminExists : Bool) (validate : Text → Bool)
    (request : Request) : Verdict :=
  match settings.isPublicPath adminExists request with
  | none => .raised
  | some true => .passed
  | some false =>
      if settings.resolve.2 = false then .passed
      else
        match given (request.extractApiKey settings.lowering) with
        | none => .refused 401 "API key is required"
        | some token =>
            if validate token then .passed
            else
              match settings.resolve.1 with
              | none => .refused 403 "Invalid API key"
              | some expected =>
                  match compareDigest token expected with
                  | none => .raised
                  | some true => .passed
                  | some false => .refused 403 "Invalid API key"

section Dispatch
variable {settings : AuthSettings} {adminExists : Bool} {validate : Text → Bool} {request : Request}

/-- Only a public path, a key that is not required, a valid token and the key itself get through. -/
theorem dispatch_eq_passed (h : settings.dispatch adminExists validate request = .passed) :
    settings.isPublicPath adminExists request = some true ∨ settings.resolve.2 = false ∨
      ∃ token, given (request.extractApiKey settings.lowering) = some token ∧
        (validate token = true ∨ settings.resolve.1 = some token) := by
  rw [AuthSettings.dispatch] at h
  cases hpublic : settings.isPublicPath adminExists request with
  | none =>
      rw [hpublic] at h
      cases h
  | some isPublic =>
      cases isPublic with
      | true => exact .inl rfl
      | false =>
          rw [hpublic] at h
          cases hrequired : settings.resolve.2 with
          | false => exact .inr (.inl rfl)
          | true =>
              rw [hrequired] at h
              cases htoken : given (request.extractApiKey settings.lowering) with
              | none =>
                  rw [htoken] at h
                  cases h
              | some token =>
                  refine .inr (.inr ⟨token, rfl, ?_⟩)
                  rw [htoken] at h
                  by_cases hvalid : validate token = true
                  · exact .inl hvalid
                  · right
                    dsimp only at h
                    rw [if_neg (ne_false_of_eq_true rfl), if_neg hvalid] at h
                    cases hexpected : settings.resolve.1 with
                    | none =>
                        rw [hexpected] at h
                        cases h
                    | some expected =>
                        rw [hexpected] at h
                        dsimp only at h
                        rw [compareDigest] at h
                        split_ifs at h with hascii
                        by_cases hsame : token = expected
                        · rw [hsame]
                        · rw [decide_eq_false hsame] at h
                          cases h

/-- A valid token gets through wherever no error is raised before. -/
theorem dispatch_of_valid {token : Text}
    (hpublic : settings.isPublicPath adminExists request ≠ none)
    (htoken : given (request.extractApiKey settings.lowering) = some token)
    (hvalid : validate token = true) :
    settings.dispatch adminExists validate request = .passed := by
  rw [AuthSettings.dispatch]
  cases hcase : settings.isPublicPath adminExists request with
  | none => exact (hpublic hcase).elim
  | some isPublic =>
      cases isPublic with
      | true => rfl
      | false =>
          rw [htoken]
          dsimp only
          rw [if_pos hvalid]
          exact ite_self _

end Dispatch

end SmartMedia.Auth
