import SmartMedia.Auth.Accounts

/-!
# Sessions

The tokens of `app/services/auth_service.py` and the handlers of `app/api/auth.py` that give and
take them, with the requests between them that the middleware judges. No handler awaits
anything before its answer, so each is one step. What signs and reads tokens and what hashes
passwords is a parameter, and `issued` is a history variable.
-/
namespace SmartMedia.Auth
open Strm

inductive TokenType where
  | access
  | refresh
  deriving DecidableEq, Repr

/-- The claims of a token; its moments are in seconds. -/
structure Payload where
  sub : ℕ
  username : Option Text := none
  role : Option Text := none
  type : TokenType
  iat : ℤ
  exp : ℤ
  deriving DecidableEq, Repr

/-- `jwt.encode` and `jwt.decode` with the secret, at a moment in seconds, and `bcrypt`. -/
structure Crypto where
  encode : Payload → Text
  decode : ℤ → Text → Option Payload
  checkpw : Text → Text → Bool
  hashpw : Text → Text → Text

structure AuthServer where
  settings : AuthSettings
  crypto : Crypto
  limits : LoginLimits := {}
  accessTokenExpireHours : ℤ := 1
  refreshTokenExpireDays : ℤ := 7

structure LoginRequest where
  username : Option Text := none
  password : Option Text := none
  apiKey : Option Text := none
  deriving DecidableEq, Repr

/-- The accounts, the clock in microseconds and the claims that have been signed. -/
structure Sessions where
  accounts : Accounts
  now : ℤ
  issued : List Payload := []

inductive AuthEvent where
  | login (request : LoginRequest)
  | refresh (token : Text)
  | changePassword (request : Request) (old new salt : Text)
  | logout
  | request (request : Request)
  | createUser (username passwordHash role : Text)
  | setActive (id : ℕ) (active : Bool)
  | tick (elapsed : ℕ)
  deriving DecidableEq, Repr

inductive AuthAnswer where
  | tokens (access refresh : Text)
  | token (access : Text)
  | verdict (verdict : Verdict)
  deriving DecidableEq, Repr

def seconds (now : ℤ) : ℤ := now / 1000000

/-- `_extract_token_from_request`, which trims less than the middleware. -/
def Request.extractToken (request : Request) (lowering : PythonText.Lowering) : Option Text :=
  ((given request.xApiKey).or ((given request.authorization).bind (bearer lowering))).or
    (given request.authToken)

namespace AuthServer

def createAccessToken (server : AuthServer) (now : ℤ) (userId : ℕ) (username role : Text) :
    Payload where
  sub := userId
  username := some username
  role := some role
  type := .access
  iat := seconds now
  exp := seconds (now + server.accessTokenExpireHours * 3600000000)

def createRefreshToken (server : AuthServer) (now : ℤ) (userId : ℕ) : Payload where
  sub := userId
  type := .refresh
  iat := seconds now
  exp := seconds (now + server.refreshTokenExpireDays * 86400000000)

/-- `verify_access_token` and `verify_refresh_token`. -/
def verify (server : AuthServer) (type : TokenType) (now : ℤ) (token : Text) : Option ℕ :=
  ((server.crypto.decode (seconds now) token).filter (·.type = type)).map (·.sub)

/-- `_validate_jwt_token`: the number of no account is 0. -/
def validateJwtToken (server : AuthServer) (s : Sessions) (token : Text) : Bool :=
  match server.verify .access s.now token with
  | none | some 0 => false
  | some userId => (s.accounts.getById userId).any (·.login.isActive)

def dispatch (server : AuthServer) (s : Sessions) (request : Request) : Verdict :=
  server.settings.dispatch s.accounts.hasAdmin (server.validateJwtToken s) request

def issue (server : AuthServer) (s : Sessions) (userId : ℕ) (username role : Text) :
    AuthAnswer × Sessions :=
  let access := server.createAccessToken s.now userId username role
  let refresh := server.createRefreshToken s.now userId
  (.tokens (server.crypto.encode access) (server.crypto.encode refresh),
    { s with issued := refresh :: access :: s.issued })

def renew (server : AuthServer) (s : Sessions) (userId : ℕ) (username role : Text) :
    AuthAnswer × Sessions :=
  let access := server.createAccessToken s.now userId username role
  (.token (server.crypto.encode access), { s with issued := access :: s.issued })

def refuse (s : Sessions) (status : ℕ) (detail : String) : AuthAnswer × Sessions :=
  (.verdict (.refused status detail), s)

def login (server : AuthServer) (s : Sessions) (request : LoginRequest) : AuthAnswer × Sessions :=
  match given request.username, given request.password with
  | some username, some password =>
      match s.accounts.getByUsername username with
      | none => refuse s 401 "用户名或密码错误"
      | some account =>
          let correct := server.crypto.checkpw password account.passwordHash
          let (row, error) := authenticateUser server.limits s.now correct (some account.login)
          let s := { s with accounts := s.accounts.update account.id id (row.getD ·) }
          match error with
          | some error => refuse s 401 error
          | none => server.issue s account.id account.username account.role
  | _, _ =>
      match given request.apiKey with
      | none => refuse s 400 "请提供用户名和密码，或 API Key"
      | some apiKey =>
          match server.settings.resolve.1 with
          | none => refuse s 500 "API key not configured"
          | some expected =>
              match compareDigest apiKey expected with
              | none => (.verdict .raised, s)
              | some false => refuse s 403 "Invalid API key"
              | some true => server.issue s 0 "api-key".toList "api_key".toList

/-- `refresh_access_token`, which does not ask whether the account is active. -/
def refresh (server : AuthServer) (s : Sessions) (token : Text) : AuthAnswer × Sessions :=
  match server.verify .refresh s.now token with
  | none => refuse s 401 "Invalid or expired refresh token"
  | some 0 => server.renew s 0 "api-key".toList "api_key".toList
  | some userId =>
      match s.accounts.getById userId with
      | none => refuse s 401 "用户不存在"
      | some user => server.renew s user.id user.username user.role

/-- `change_password` behind the middleware. The token may be of either type. -/
def changePassword (server : AuthServer) (s : Sessions) (request : Request) (old new salt : Text) :
    AuthAnswer × Sessions :=
  match server.dispatch s { request with path := "/api/auth/change-password".toList } with
  | .passed =>
      match request.extractToken server.settings.lowering with
      | none => refuse s 401 "未登录"
      | some token =>
          match server.crypto.decode (seconds s.now) token with
          | none => refuse s 401 "Token 无效或已过期"
          | some payload =>
              match s.accounts.getById payload.sub with
              | none => refuse s 401 "用户不存在"
              | some user =>
                  if server.crypto.checkpw old user.passwordHash then
                    (.verdict .passed, { s with
                      accounts := s.accounts.update user.id
                        (fun _ => server.crypto.hashpw salt new) id })
                  else refuse s 400 "原密码错误"
  | verdict => (.verdict verdict, s)

def answer (server : AuthServer) (s : Sessions) : AuthEvent → AuthAnswer × Sessions
  | .login request => server.login s request
  | .refresh token => server.refresh s token
  | .changePassword request old new salt => server.changePassword s request old new salt
  | .logout => (.verdict .passed, s)
  | .request request => (.verdict (server.dispatch s request), s)
  | .createUser username passwordHash role =>
      match s.accounts.create username passwordHash role with
      | none => (.verdict .raised, s)
      | some accounts => (.verdict .passed, { s with accounts })
  | .setActive userId active =>
      (.verdict .passed, { s with
        accounts := s.accounts.update userId id fun user => { user with isActive := active } })
  | .tick elapsed => (.verdict .passed, { s with now := s.now + elapsed })

def step (server : AuthServer) (s : Sessions) (e : AuthEvent) : Option Sessions :=
  some (server.answer s e).2

/-- Whoever has no secret signs nothing: what is read of a token has been signed here. -/
def Unforged (server : AuthServer) (s : Sessions) (token : Text) : Prop :=
  ∀ payload, server.crypto.decode (seconds s.now) token = some payload → payload ∈ s.issued

/-- An account's name and password, while it is active and not locked. -/
def Admits (server : AuthServer) (s : Sessions) (request : LoginRequest) (account : Account) : Prop :=
  ∃ username password, given request.username = some username ∧
    given request.password = some password ∧
    s.accounts.getByUsername username = some account ∧
    accountError account.login s.now = none ∧
    server.crypto.checkpw password account.passwordHash = true

/-- The moments, in seconds, of the events that have admitted an account. -/
def LoggedIn (server : AuthServer) (s₀ : Sessions) (events : List AuthEvent) (userId : ℕ) (since : ℤ) :
    Prop :=
  ∃ pre request post s account, events = pre ++ .login request :: post ∧
    PartialRun.exec server.step s₀ pre = some s ∧ server.Admits s request account ∧
    account.id = userId ∧ seconds s.now = since

section Issued
variable {server : AuthServer} {s s' s₀ : Sessions} {e : AuthEvent} {payload : Payload}
  {userId : ℕ} {username role token : Text}

theorem seconds_add (now amount : ℤ) : seconds (now + amount * 1000000) = seconds now + amount :=
  Int.add_mul_ediv_right now amount (by decide)

theorem createAccessToken_exp (now : ℤ) : (server.createAccessToken now userId username role).exp =
    seconds now + server.accessTokenExpireHours * 3600 := by
  have hmicros : server.accessTokenExpireHours * 3600000000 =
      server.accessTokenExpireHours * 3600 * 1000000 := by omega
  rw [createAccessToken, hmicros, seconds_add]

theorem createRefreshToken_exp (now : ℤ) : (server.createRefreshToken now userId).exp =
    seconds now + server.refreshTokenExpireDays * 86400 := by
  have hmicros : server.refreshTokenExpireDays * 86400000000 =
      server.refreshTokenExpireDays * 86400 * 1000000 := by omega
  rw [createRefreshToken, hmicros, seconds_add]

/-- An attempt succeeds exactly with the right password of an active account without a lock. -/
theorem authenticateUser_snd {limits : LoginLimits} {now : ℤ} {correct : Bool} {user : User} :
    (authenticateUser limits now correct (some user)).2 = none ↔
      accountError user now = none ∧ correct = true := by
  rw [authenticateUser]
  cases haccount : accountError user now with
  | some error => simp
  | none => cases correct <;> simp

theorem verify_eq_some {type : TokenType} {now : ℤ} (h : server.verify type now token = some userId) :
    ∃ payload, server.crypto.decode (seconds now) token = some payload ∧ payload.type = type ∧
      payload.sub = userId := by
  obtain ⟨payload, hfilter, hsub⟩ := Option.map_eq_some_iff.mp h
  obtain ⟨hdecode, htype⟩ := Option.filter_eq_some_iff.mp hfilter
  exact ⟨payload, hdecode, of_decide_eq_true htype, hsub⟩

/-- The claims that a token has when an event signs it. -/
inductive Signed (server : AuthServer) (s : Sessions) : AuthEvent → Payload → Prop
  | apiKey (e : AuthEvent) (payload : Payload) (hsub : payload.sub = 0) : Signed server s e payload
  | access (request : LoginRequest) (account : Account) (h : server.Admits s request account) :
      Signed server s (.login request)
        (server.createAccessToken s.now account.id account.username account.role)
  | refresh (request : LoginRequest) (account : Account) (h : server.Admits s request account) :
      Signed server s (.login request) (server.createRefreshToken s.now account.id)
  | renewed (token : Text) (old : Payload)
      (hdecode : server.crypto.decode (seconds s.now) token = some old)
      (htype : old.type = .refresh) (username role : Text) :
      Signed server s (.refresh token) (server.createAccessToken s.now old.sub username role)

theorem mem_issued_issue (h : payload ∈ (server.issue s userId username role).2.issued) :
    payload = server.createRefreshToken s.now userId ∨
      payload = server.createAccessToken s.now userId username role ∨ payload ∈ s.issued := by
  rcases List.mem_cons.mp h with h | h
  · exact .inl h
  · exact .inr (List.mem_cons.mp h)

theorem signed_of_login {request : LoginRequest}
    (h : payload ∈ (server.login s request).2.issued) :
    payload ∈ s.issued ∨ Signed server s (.login request) payload := by
  unfold login at h
  split at h
  · rename_i username password hname hpassword
    split at h
    · exact .inl h
    · rename_i account haccount
      dsimp only at h
      split at h
      · exact .inl h
      · rename_i herror
        obtain ⟨hfree, hcorrect⟩ := authenticateUser_snd.mp herror
        have hadmits : server.Admits s request account :=
          ⟨username, password, hname, hpassword, haccount, hfree, hcorrect⟩
        rcases mem_issued_issue h with rfl | rfl | hold
        · exact .inr (.refresh request account hadmits)
        · exact .inr (.access request account hadmits)
        · exact .inl hold
  · split at h
    · exact .inl h
    · split at h
      · exact .inl h
      · split at h
        · exact .inl h
        · exact .inl h
        · rcases mem_issued_issue h with rfl | rfl | hold
          · exact .inr (.apiKey _ _ rfl)
          · exact .inr (.apiKey _ _ rfl)
          · exact .inl hold

theorem getById_id {accounts : Accounts} {account : Account}
    (h : accounts.getById userId = some account) : account.id = userId := by
  have hfind : accounts.rows.find? (·.id = userId) = some account := h
  simpa using List.find?_some hfind

theorem signed_of_refresh (h : payload ∈ (server.refresh s token).2.issued) :
    payload ∈ s.issued ∨ Signed server s (.refresh token) payload := by
  unfold refresh at h
  split at h
  · exact .inl h
  · rcases List.mem_cons.mp h with rfl | hold
    · exact .inr (.apiKey _ _ rfl)
    · exact .inl hold
  · rename_i userId _ hverify
    obtain ⟨old, hdecode, htype, hsub⟩ := verify_eq_some hverify
    split at h
    · exact .inl h
    · rename_i user huser
      rcases List.mem_cons.mp h with rfl | hold
      · rw [getById_id huser, ← hsub]
        exact .inr (.renewed token old hdecode htype _ _)
      · exact .inl hold

/-- Only the two handlers sign anything. -/
theorem changePassword_issued (request : Request) (old new salt : Text) :
    (server.changePassword s request old new salt).2.issued = s.issued := by
  unfold changePassword
  split
  · split
    · rfl
    · split
      · rfl
      · split
        · rfl
        · split_ifs <;> rfl
  · rfl

theorem signed_of_step (hstep : server.step s e = some s') (h : payload ∈ s'.issued) :
    payload ∈ s.issued ∨ Signed server s e payload := by
  cases hstep
  cases e with
  | login request => exact signed_of_login h
  | refresh token => exact signed_of_refresh h
  | changePassword request old new salt =>
      rw [answer, changePassword_issued] at h
      exact .inl h
  | createUser username passwordHash role =>
      rw [answer] at h
      split at h <;> exact .inl h
  | logout | request | setActive | tick => exact .inl h

end Issued

section Provenance
variable {server : AuthServer} {s s' s₀ : Sessions} {e : AuthEvent} {payload : Payload}
  {events : List AuthEvent} {since : ℤ}

/-- How long the claims of a token can be read. -/
def Bounded (server : AuthServer) (since : ℤ) (payload : Payload) : Prop :=
  match payload.type with
  | .refresh => payload.exp ≤ since + server.refreshTokenExpireDays * 86400
  | .access => payload.exp ≤ since + max 0 (server.refreshTokenExpireDays * 86400) +
      server.accessTokenExpireHours * 3600

/-- What has been signed for an account goes back to a login with its password. -/
def Descended (server : AuthServer) (s₀ : Sessions) (events : List AuthEvent) (s : Sessions) : Prop :=
  PartialRun.exec server.step s₀ events = some s ∧
    ∀ payload ∈ s.issued, payload.sub = 0 ∨
      ∃ since, server.LoggedIn s₀ events payload.sub since ∧ server.Bounded since payload

theorem LoggedIn.append {userId : ℕ} (h : server.LoggedIn s₀ events userId since) (e : AuthEvent) :
    server.LoggedIn s₀ (events ++ [e]) userId since := by
  obtain ⟨pre, request, post, s, account, rfl, h⟩ := h
  exact ⟨pre, request, post ++ [e], s, account, by simp, h⟩

theorem Descended.signed (hdescended : server.Descended s₀ events s) (hsigned : Signed server s e payload)
    (hunforged : ∀ token, e = .refresh token → server.Unforged s token)
    (hexpired : ∀ now token payload, server.crypto.decode now token = some payload →
      now ≤ payload.exp) :
    payload.sub = 0 ∨
      ∃ since, server.LoggedIn s₀ (events ++ [e]) payload.sub since ∧ server.Bounded since payload := by
  cases hsigned with
  | apiKey _ _ hsub => exact .inl hsub
  | access request account h =>
      refine .inr ⟨seconds s.now, ⟨events, request, [], s, account, rfl, hdescended.1, h, rfl, rfl⟩, ?_⟩
      have hmax : 0 ≤ max 0 (server.refreshTokenExpireDays * 86400) := le_max_left _ _
      change (server.createAccessToken s.now account.id account.username account.role).exp ≤ _
      rw [createAccessToken_exp]
      omega
  | refresh request account h =>
      refine .inr ⟨seconds s.now, ⟨events, request, [], s, account, rfl, hdescended.1, h, rfl, rfl⟩, ?_⟩
      exact createRefreshToken_exp s.now |>.le
  | renewed token old hdecode htype username role =>
      rcases hdescended.2 old (hunforged token rfl old hdecode) with hzero | ⟨since, hlogged, hbound⟩
      · exact .inl hzero
      · refine .inr ⟨since, hlogged.append _, ?_⟩
        have hlive : seconds s.now ≤ old.exp := hexpired _ _ _ hdecode
        rw [Bounded, htype] at hbound
        have hmax : server.refreshTokenExpireDays * 86400 ≤
          max 0 (server.refreshTokenExpireDays * 86400) := le_max_right _ _
        change (server.createAccessToken s.now old.sub username role).exp ≤ _
        rw [createAccessToken_exp]
        dsimp only at hbound
        omega

theorem Descended.step (hdescended : server.Descended s₀ events s) (hstep : server.step s e = some s')
    (hunforged : ∀ token, e = .refresh token → server.Unforged s token)
    (hexpired : ∀ now token payload, server.crypto.decode now token = some payload →
      now ≤ payload.exp) : server.Descended s₀ (events ++ [e]) s' := by
  refine ⟨?_, fun payload hpayload => ?_⟩
  · rw [PartialRun.exec_append, hdescended.1]
    exact PartialRun.exec_cons_eq_some.mpr ⟨s', hstep, rfl⟩
  · rcases signed_of_step hstep hpayload with hold | hsigned
    · rcases hdescended.2 payload hold with hzero | ⟨since, hlogged, hbound⟩
      · exact .inl hzero
      · exact .inr ⟨since, hlogged.append e, hbound⟩
    · exact hdescended.signed hsigned hunforged hexpired

/-- The claims of a login at the moment 0, and a server that has signed no others. -/
def sampleClaims (type : TokenType) : Payload :=
  match type with
  | .access =>
      { sub := 1, username := some ['u'], role := some ['r'], type := .access, iat := 0, exp := 3600 }
  | .refresh => { sub := 1, type := .refresh, iat := 0, exp := 604800 }

def sampleCrypto : Crypto where
  encode payload := if payload.type = .access then ['a'] else ['r']
  decode now token :=
    (if token = ['a'] then some (sampleClaims .access)
      else if token = ['r'] then some (sampleClaims .refresh) else none).filter (now ≤ ·.exp)
  checkpw password hash := password = hash
  hashpw _ password := password

def sampleServer : AuthServer where
  settings := { security := some (['k'], true), checks := ⟨fun _ => none, fun _ => none⟩ }
  crypto := sampleCrypto

def sampleAccount : Account := { id := 1, username := ['u'], passwordHash := ['p'], role := ['r'] }

def sampleStart : Sessions where
  accounts := ⟨[sampleAccount], List.nodup_singleton _, List.nodup_singleton _⟩
  now := 0

def sampleLogin (password : Text) : AuthEvent :=
  .login { username := some ['u'], password := some password }

def sampleRequest : Request := { path := "/api/strm".toList, xApiKey := some ['a'] }

theorem sampleCrypto_expired (now : ℤ) (token : Text) (payload : Payload)
    (h : sampleCrypto.decode now token = some payload) : now ≤ payload.exp :=
  of_decide_eq_true (Option.filter_eq_some_iff.mp h).2

/-- Five seconds after the login. -/
def sampleEnd : Sessions :=
  { (sampleServer.answer sampleStart (sampleLogin ['p'])).2 with now := 5000000 }

end Provenance

section Lasting
variable {server : AuthServer} {s s' : Sessions} {e : AuthEvent} {accounts accounts' : Accounts}
  {account user : Account} {userId : ℕ}

theorem getById_update (id : ℕ) (passwordHash : Text → Text) (login : User → User) :
    (accounts.update id passwordHash login).getById userId =
      (accounts.getById userId).map (Account.change id passwordHash login) := by
  have hid : ((fun row : Account => decide (row.id = userId)) ∘
      Account.change id passwordHash login) = fun row => decide (row.id = userId) := by
    funext row
    rw [Function.comp_apply, Account.change_id]
  rw [Accounts.getById, Accounts.update, List.find?_map, hid]
  rfl

theorem getById_create {username passwordHash role : Text} (h : accounts.getById userId = some user)
    (hcreate : accounts.create username passwordHash role = some accounts') :
    accounts'.getById userId = some user := by
  have hfind : accounts.rows.find? (·.id = userId) = some user := h
  rw [Accounts.getById, Accounts.rows_of_create hcreate, List.find?_append, hfind]
  rfl

/-- The key tells rows apart. -/
theorem eq_of_getById (h : accounts.getById userId = some user) (hmem : account ∈ accounts.rows)
    (hid : account.id = userId) : account = user := by
  have hfind : accounts.rows.find? (·.id = userId) = some user := h
  have huser : user ∈ accounts.rows := List.mem_of_find?_eq_some hfind
  exact List.inj_on_of_nodup_map accounts.ids hmem huser (hid.trans (getById_id h).symm)

/-- An attempt to log in writes no `is_active`. -/
theorem authenticateUser_isActive (limits : LoginLimits) (now : ℤ) (correct : Bool) (login other : User) :
    ((authenticateUser limits now correct (some login)).1.getD other).isActive = login.isActive := by
  have hcommit : ∀ held : User, held.isActive = login.isActive →
      (login.commit held login).isActive = login.isActive := by
    intro held hsame
    rw [User.commit, User.column, if_pos hsame]
  rw [authenticateUser]
  cases accountError login now with
  | some error => rfl
  | none =>
      cases correct with
      | true => exact hcommit _ rfl
      | false =>
          have hincrement : (login.incrementFailedLogin limits now).1.isActive = login.isActive := by
            rw [User.incrementFailedLogin]
            split_ifs <;> rfl
          exact hcommit _ hincrement

/-- What an event can do to an account: only the edit of `is_active` changes it. -/
theorem getById_step (hstep : server.step s e = some s') (h : s.accounts.getById userId = some user) :
    ∃ user', s'.accounts.getById userId = some user' ∧
      (user'.login.isActive = user.login.isActive ∨
        e = .setActive userId user'.login.isActive) := by
  cases hstep
  have hsame : ∃ user', s.accounts.getById userId = some user' ∧
      (user'.login.isActive = user.login.isActive ∨
        e = .setActive userId user'.login.isActive) := ⟨user, h, .inl rfl⟩
  have hupdate (id : ℕ) (passwordHash : Text → Text) (login : User → User)
      (hlogin : user.id = id → (login user.login).isActive = user.login.isActive ∨
        e = .setActive userId (login user.login).isActive) :
      ∃ user', (s.accounts.update id passwordHash login).getById userId = some user' ∧
        (user'.login.isActive = user.login.isActive ∨
          e = .setActive userId user'.login.isActive) := by
    refine ⟨_, (getById_update id passwordHash login).trans (congrArg _ h), ?_⟩
    by_cases hid : user.id = id
    · rw [Account.change, if_pos hid]
      exact hlogin hid
    · rw [Account.change, if_neg hid]
      exact .inl rfl
  cases e with
  | login request =>
      rw [answer]
      unfold login
      split
      · rename_i username password hname hpassword
        split
        · exact hsame
        · rename_i account haccount
          have hmem : account ∈ s.accounts.rows := List.mem_of_find?_eq_some haccount
          have hwritten := hupdate account.id id (Option.getD (authenticateUser server.limits s.now
              (server.crypto.checkpw password account.passwordHash) (some account.login)).1) ?_
          · dsimp only
            split
            · exact hwritten
            · exact hwritten
          · intro hid
            rw [eq_of_getById h hmem (hid.symm.trans (getById_id h))]
            exact .inl (authenticateUser_isActive _ _ _ _ _)
      · split
        · exact hsame
        · split
          · exact hsame
          · split <;> exact hsame
  | refresh token =>
      rw [answer]
      unfold refresh
      split
      · exact hsame
      · exact hsame
      · split <;> exact hsame
  | changePassword request old new salt =>
      rw [answer]
      unfold changePassword
      split
      · split
        · exact hsame
        · split
          · exact hsame
          · split
            · exact hsame
            · split
              · exact hupdate _ _ id fun _ => .inl rfl
              · exact hsame
      · exact hsame
  | createUser username passwordHash role =>
      rw [answer]
      split
      · exact hsame
      · rename_i accounts hcreate
        exact ⟨user, getById_create h hcreate, .inl rfl⟩
  | setActive id active => exact hupdate id _ _ fun hid => .inr (by rw [← hid, getById_id h])
  | logout | request | tick => exact hsame

/-- An account that nobody deactivates stays there and active. -/
theorem active_of_exec {events : List AuthEvent} (hrun : PartialRun.exec server.step s events = some s')
    (hactive : (s.accounts.getById userId).any (·.login.isActive) = true)
    (hspared : ∀ e ∈ events, e ≠ .setActive userId false) :
    (s'.accounts.getById userId).any (·.login.isActive) = true := by
  have halong : PartialRun.Along server.step (fun _ e => e ≠ .setActive userId false) s events := by
    refine PartialRun.along_iff_split.mpr fun pre e post hevents _ _ => hspared e ?_
    rw [hevents]
    exact List.mem_append_right _ List.mem_cons_self
  refine PartialRun.invariant_of_along
    (I := fun s => (s.accounts.getById userId).any (·.login.isActive) = true)
    (fun s e s' hs hspared hstep => ?_) hactive halong hrun
  obtain ⟨user, huser, huseractive⟩ := (Option.any_eq_true _ _).mp hs
  obtain ⟨user', huser', hsame | hedit⟩ := getById_step hstep huser
  · exact (Option.any_eq_true _ _).mpr ⟨user', huser', hsame.trans huseractive⟩
  · refine (Option.any_eq_true _ _).mpr ⟨user', huser', ?_⟩
    rw [← Bool.not_eq_false]
    intro hinactive
    rw [hinactive] at hedit
    exact hspared hedit

/-- No event removes an account. -/
theorem present_of_exec {events : List AuthEvent} (hrun : PartialRun.exec server.step s events = some s')
    (hpresent : (s.accounts.getById userId).isSome = true) :
    (s'.accounts.getById userId).isSome = true := by
  refine PartialRun.invariant_of_step
    (I := fun s => (s.accounts.getById userId).isSome = true) (fun s e s' hs hstep => ?_) hpresent hrun
  obtain ⟨user, huser⟩ := Option.isSome_iff_exists.mp hs
  obtain ⟨user', huser', -⟩ := getById_step hstep huser
  exact Option.isSome_iff_exists.mpr ⟨user', huser'⟩

theorem login_of_admits {request : LoginRequest} (h : server.Admits s request account) :
    ∃ accounts, server.login s request =
      server.issue { s with accounts } account.id account.username account.role := by
  obtain ⟨username, password, hname, hpassword, haccount, hfree, hcorrect⟩ := h
  refine ⟨s.accounts.update account.id id ((authenticateUser server.limits s.now
    (server.crypto.checkpw password account.passwordHash) (some account.login)).1.getD ·), ?_⟩
  have herror : (authenticateUser server.limits s.now
      (server.crypto.checkpw password account.passwordHash) (some account.login)).2 = none :=
    authenticateUser_snd.mpr ⟨hfree, hcorrect⟩
  rw [login, hname, hpassword]
  dsimp only
  rw [haccount]
  dsimp only
  rw [herror]

theorem isActive_of_accountError {user : User} {now : ℤ} (h : accountError user now = none) :
    user.isActive = true := by
  rw [accountError] at h
  split_ifs at h with hinactive
  exact Bool.not_eq_false _ ▸ hinactive

theorem active_after_login {request : LoginRequest} (h : server.Admits s request account) :
    ((server.login s request).2.accounts.getById account.id).any (·.login.isActive) = true := by
  obtain ⟨username, password, -, -, hname, hfree, -⟩ := h
  have hmem : account ∈ s.accounts.rows := List.mem_of_find?_eq_some hname
  have hsome : (s.accounts.getById account.id).isSome = true :=
    List.find?_isSome.mpr ⟨account, hmem, decide_eq_true rfl⟩
  obtain ⟨user, huser⟩ := Option.isSome_iff_exists.mp hsome
  obtain rfl := eq_of_getById huser hmem rfl
  have hstep : server.step s (.login request) = some (server.login s request).2 := rfl
  obtain ⟨user', huser', hsame | hedit⟩ := getById_step hstep huser
  · refine (Option.any_eq_true _ _).mpr ⟨user', huser', hsame.trans ?_⟩
    exact isActive_of_accountError hfree
  · cases hedit

/-- The tokens of a login can be used for as long as they last: through logouts, failures that lock
the account and changes of its password, its access token lets every request through while the
account is active, and its refresh token is good for another one even when it is not. -/
theorem session_lasts (server : AuthServer) (s : Sessions) (request : LoginRequest)
    (account : Account) (hadmits : server.Admits s request account) (hkey : account.id ≠ 0)
    (access refresh : Payload)
    (haccess : access =
      server.createAccessToken s.now account.id account.username account.role)
    (hrefresh : refresh = server.createRefreshToken s.now account.id)
    (hreadable : ∀ payload ∈ [access, refresh], ∀ now ≤ payload.exp,
      server.crypto.decode now (server.crypto.encode payload) = some payload) :
    (server.login s request).1 =
        .tokens (server.crypto.encode access) (server.crypto.encode refresh) ∧
      ∀ events t, PartialRun.exec server.step (server.login s request).2 events = some t →
        (seconds t.now ≤ seconds s.now + server.accessTokenExpireHours * 3600 →
          (∀ e ∈ events, e ≠ .setActive account.id false) → ∀ r : Request,
          given (r.extractApiKey server.settings.lowering) = some (server.crypto.encode access) →
          server.settings.isPublicPath t.accounts.hasAdmin r ≠ none →
          server.dispatch t r = .passed) ∧
        (seconds t.now ≤ seconds s.now + server.refreshTokenExpireDays * 86400 →
          ∃ username role, (server.refresh t (server.crypto.encode refresh)).1 =
            .token (server.crypto.encode
              (server.createAccessToken t.now account.id username role))) := by
  obtain ⟨accounts, hlogin⟩ := login_of_admits hadmits
  refine ⟨?_, fun events t hrun => ⟨fun hlive hspared r htoken hpublic => ?_, fun hlive => ?_⟩⟩
  · rw [hlogin, haccess, hrefresh]
    rfl
  · have hactive := active_of_exec hrun (active_after_login hadmits) hspared
    have hread : server.crypto.decode (seconds t.now) (server.crypto.encode access) = some access := by
      refine hreadable access List.mem_cons_self _ ?_
      rw [haccess, createAccessToken_exp]
      exact hlive
    have hverify : server.verify .access t.now (server.crypto.encode access) = some account.id := by
      rw [verify, hread, haccess]
      rfl
    refine dispatch_of_valid hpublic htoken ?_
    rw [validateJwtToken, hverify]
    split
    · contradiction
    · rename_i hzero
      exact (hkey (Option.some.inj hzero)).elim
    · rename_i userId _ hsome
      rw [← Option.some.inj hsome]
      exact hactive
  · have hpresent : (t.accounts.getById account.id).isSome = true :=
      present_of_exec hrun (Option.isSome_of_any (active_after_login hadmits))
    obtain ⟨user, huser⟩ := Option.isSome_iff_exists.mp hpresent
    have hread : server.crypto.decode (seconds t.now) (server.crypto.encode refresh) = some refresh := by
      refine hreadable refresh (List.mem_cons_of_mem _ List.mem_cons_self) _ ?_
      rw [hrefresh, createRefreshToken_exp]
      exact hlive
    have hverify : server.verify .refresh t.now (server.crypto.encode refresh) = some account.id := by
      rw [verify, hread, hrefresh]
      rfl
    refine ⟨user.username, user.role, ?_⟩
    rw [AuthServer.refresh, hverify]
    split
    · contradiction
    · rename_i hzero
      exact (hkey (Option.some.inj hzero)).elim
    · rename_i userId _ hsome
      rw [← Option.some.inj hsome, huser]
      dsimp only
      rw [renew, getById_id huser]

/-- Failures that lock the account and a logout after the login. -/
def sampleFailures : List AuthEvent :=
  List.replicate 5 (sampleLogin ['x']) ++ [.logout, .tick 5000000]

/-- The table after the failures: the account is locked. -/
def sampleLocked : Sessions :=
  sampleFailures.foldl (fun s e => (sampleServer.answer s e).2)
    (sampleServer.login sampleStart { username := some ['u'], password := some ['p'] }).2

theorem sample_session_outlasts_lock :
    sampleLocked.accounts.rows.map (·.login.isLocked sampleLocked.now) = [true] ∧
      sampleServer.dispatch sampleLocked sampleRequest = .passed := by
  refine ⟨by decide +kernel, ?_⟩
  have hadmits : sampleServer.Admits sampleStart { username := some ['u'], password := some ['p'] }
      sampleAccount := ⟨['u'], ['p'], rfl, rfl, rfl, rfl, rfl⟩
  have hreadable : ∀ payload ∈ [sampleClaims .access, sampleClaims .refresh], ∀ now ≤ payload.exp,
      sampleServer.crypto.decode now (sampleServer.crypto.encode payload) = some payload := by
    intro payload hpayload now hnow
    rcases List.mem_pair.mp hpayload with rfl | rfl
    · change (some (sampleClaims .access)).filter (now ≤ ·.exp) = _
      exact Option.filter_eq_some_iff.mpr ⟨rfl, decide_eq_true hnow⟩
    · change (some (sampleClaims .refresh)).filter (now ≤ ·.exp) = _
      exact Option.filter_eq_some_iff.mpr ⟨rfl, decide_eq_true hnow⟩
  have hlasts := session_lasts sampleServer sampleStart _ sampleAccount hadmits (by decide)
    (sampleClaims .access) (sampleClaims .refresh) (by decide +kernel) (by decide +kernel) hreadable
  exact (hlasts.2 sampleFailures sampleLocked rfl).1 (by decide +kernel) (by decide +kernel)
    sampleRequest rfl (by decide +kernel)

end Lasting

end AuthServer

end SmartMedia.Auth
