import SmartMedia.Library.PartialRun

/-!
# Logging in

`User` of `app/models/user.py` and `authenticate_user` of `app/services/auth_service.py`.
An attempt reads the user's row into an instance of its own session, verifies the password
and commits the instance; a commit writes the attributes whose values have changed. The
history variable `failures` counts wrong passwords since the last successful login or the
last expiry of a lock, up to the lock.
-/
namespace SmartMedia.Auth

/-- The columns that an attempt reads or writes. Moments are in microseconds. -/
structure User where
  isActive : Bool := true
  lastLogin : Option ℤ := none
  failedLoginAttempts : ℕ := 0
  lockedUntil : Option ℤ := none
  deriving DecidableEq, Repr

/-- `MAX_LOGIN_ATTEMPTS` and `LOCK_DURATION_MINUTES`, which the environment sets. -/
structure LoginLimits where
  maxLoginAttempts : ℤ := 5
  lockDurationMinutes : ℤ := 15

namespace User

def isLocked (user : User) (now : ℤ) : Bool := user.lockedUntil.any (now < ·)

def updateLastLogin (user : User) (now : ℤ) : User :=
  { user with lastLogin := some now, failedLoginAttempts := 0, lockedUntil := none }

def incrementFailedLogin (user : User) (limits : LoginLimits) (now : ℤ) : User × Bool :=
  let user := { user with failedLoginAttempts := user.failedLoginAttempts + 1 }
  if limits.maxLoginAttempts ≤ user.failedLoginAttempts then
    ({ user with lockedUntil := some (now + limits.lockDurationMinutes * 60000000) }, true)
  else (user, false)

/-- A column after a commit of the value `held`, which was `read` before. -/
def column {α : Type*} [DecidableEq α] (read held row : α) : α := if held = read then row else held

def commit (read held row : User) : User where
  isActive := column read.isActive held.isActive row.isActive
  lastLogin := column read.lastLogin held.lastLogin row.lastLogin
  failedLoginAttempts :=
    column read.failedLoginAttempts held.failedLoginAttempts row.failedLoginAttempts
  lockedUntil := column read.lockedUntil held.lockedUntil row.lockedUntil

end User

/-- What `authenticate_user` finds before it verifies the password. -/
def accountError (user : User) (now : ℤ) : Option String :=
  if user.isActive = false then some "账户已被禁用"
  else if user.isLocked now then some "账户已被锁定，请稍后再试"
  else none

/-- The answer to a wrong password, for the instance after the increment. -/
def passwordError (limits : LoginLimits) (user : User) (isLocked : Bool) : String :=
  if isLocked then "密码错误次数过多，账户已锁定 " ++ toString limits.lockDurationMinutes ++ " 分钟"
  else "用户名或密码错误，剩余尝试次数: " ++
    toString (limits.maxLoginAttempts - user.failedLoginAttempts)

/-- An attempt that nothing else interferes with: the row it leaves and its error. -/
def authenticateUser (limits : LoginLimits) (now : ℤ) (correct : Bool) :
    Option User → Option User × Option String
  | none => (none, some "用户名或密码错误")
  | some user =>
      match accountError user now with
      | some error => (some user, some error)
      | none =>
          if correct then (some (user.commit (user.updateLastLogin now) user), none)
          else
            let (held, isLocked) := user.incrementFailedLogin limits now
            (some (user.commit held user), some (passwordError limits held isLocked))

/-- Where an attempt is, with its instance of the user as it was read. -/
inductive LoginStage where
  | verifying (user : User)
  | wrong (user : User)
  | right (user : User)
  | ended (error : Option String)
  deriving DecidableEq, Repr

/-- The read and the checks that follow it. -/
def LoginStage.afterRead (user : User) (now : ℤ) : LoginStage :=
  match accountError user now with
  | some error => .ended (some error)
  | none => .verifying user

/-- The user's row, the clock and the attempts. -/
structure LoginSystem where
  user : User
  now : ℤ
  attempts : List LoginStage := []
  failures : ℕ := 0
  deriving DecidableEq, Repr

inductive LoginAction where
  | read
  | verify (attempt : ℕ) (correct : Bool)
  | store (attempt : ℕ)
  | tick (elapsed : ℕ)
  deriving DecidableEq, Repr

namespace LoginSystem

def locked (s : LoginSystem) : Bool := s.user.isLocked s.now

def step (limits : LoginLimits) (s : LoginSystem) : LoginAction → Option LoginSystem
  | .read => some { s with attempts := s.attempts ++ [.afterRead s.user s.now] }
  | .verify i correct =>
      match s.attempts[i]? with
      | some (.verifying user) =>
          some { s with
            attempts := s.attempts.set i (if correct then .right user else .wrong user)
            failures := if correct || s.locked then s.failures else s.failures + 1 }
      | _ => none
  | .store i =>
      match s.attempts[i]? with
      | some (.right user) =>
          some { s with
            user := user.commit (user.updateLastLogin s.now) s.user
            attempts := s.attempts.set i (.ended none)
            failures := 0 }
      | some (.wrong user) =>
          let (held, isLocked) := user.incrementFailedLogin limits s.now
          some { s with
            user := user.commit held s.user
            attempts := s.attempts.set i (.ended (some (passwordError limits held isLocked))) }
      | _ => none
  | .tick elapsed =>
      let now := s.now + elapsed
      some { s with
        now
        failures := if s.locked && !s.user.isLocked now then 0 else s.failures }

/-- The steps of an attempt that nothing interferes with are `authenticate_user`. -/
theorem lone_attempt (limits : LoginLimits) (user : User) (now : ℤ) (correct : Bool)
    (haccount : accountError user now = none) :
    ∃ s', PartialRun.exec (step limits) { user := user, now := now } [.read, .verify 0 correct, .store 0] = some s' ∧
      ∃ error, s'.attempts = [.ended error] ∧
        authenticateUser limits now correct (some user) = (some s'.user, error) := by
  cases correct with
  | true =>
      refine ⟨{
        user := user.commit (user.updateLastLogin now) user
        now := now
        attempts := [.ended none] }, ?_, none, rfl, ?_⟩
      · simp [PartialRun.exec, step, LoginStage.afterRead, haccount]
      · simp [authenticateUser, haccount]
  | false =>
      let held := (user.incrementFailedLogin limits now).1
      let isLocked := (user.incrementFailedLogin limits now).2
      refine ⟨{
        user := user.commit held user
        now := now
        attempts := [.ended (some (passwordError limits held isLocked))]
        failures := if user.isLocked now then 0 else 1 }, ?_, _, rfl, ?_⟩
      · simp [PartialRun.exec, step, LoginStage.afterRead, haccount, held, isLocked, locked]
      · simp [authenticateUser, haccount, held, isLocked]

end LoginSystem

end SmartMedia.Auth
