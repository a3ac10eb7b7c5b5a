import SmartMedia.Auth.AuthMiddleware
import SmartMedia.Auth.Login
import SmartMedia.Library.Counting
import SmartMedia.Library.PartialRun

/-!
# The accounts and the first administrator

The table of `app/models/user.py`, `create_user` and `init_default_admin` of
`app/services/auth_service.py` and `init_admin` of `app/api/auth.py`. Every worker makes the
administrator of its environment when it starts, and requests ask for the same one, so that
each read and each write of such a call is a step of its own.
-/
namespace SmartMedia.Auth
open Strm

/-- A row of the table `users`; `login` has the columns that an attempt to log in changes. -/
structure Account where
  id : ℕ
  username : Text
  passwordHash : Text
  role : Text := "user".toList
  login : User := {}
  deriving DecidableEq, Repr

def Account.isAdmin (account : Account) : Bool := account.role = "admin".toList

/-- A row after an update of the one with the key `id`. -/
def Account.change (id : ℕ) (passwordHash : Text → Text) (login : User → User) (account : Account) :
    Account :=
  if account.id = id then
    { account with passwordHash := passwordHash account.passwordHash, login := login account.login }
  else account

/-- The key that the next row gets. -/
def nextId (rows : List Account) : ℕ := (rows.map (·.id)).foldr max 0 + 1

section Rows
variable {rows : List Account} {account : Account} {p : Account → Bool}
  {id : ℕ} {passwordHash : Text → Text} {login : User → User}

theorem Account.change_id (account : Account) :
    (Account.change id passwordHash login account).id = account.id := by
  rw [change]
  split_ifs <;> rfl

theorem Account.change_username (account : Account) :
    (Account.change id passwordHash login account).username = account.username := by
  rw [change]
  split_ifs <;> rfl

theorem id_lt_nextId (h : account ∈ rows) : account.id < nextId rows := by
  induction rows with
  | nil => cases h
  | cons first rows ih =>
      rw [nextId, List.map_cons, List.foldr_cons, Nat.lt_succ_iff]
      cases h with
      | head => exact le_max_left _ _
      | tail _ h => exact le_max_of_le_right (Nat.lt_succ_iff.mp (ih h))

theorem nodup_ids_append (h : (rows.map (·.id)).Nodup) (hid : account.id = nextId rows) :
    ((rows ++ [account]).map (·.id)).Nodup := by
  rw [List.map_append, List.map_singleton, hid]
  refine List.nodup_append.mpr ⟨h, List.nodup_singleton _, fun id hmem other hother => ?_⟩
  obtain ⟨row, hrow, rfl⟩ := List.mem_map.mp hmem
  rw [List.mem_singleton.mp hother]
  exact (id_lt_nextId hrow).ne

theorem nodup_usernames_append (h : (rows.map (·.username)).Nodup)
    (hfree : account.username ∉ rows.map (·.username)) :
    ((rows ++ [account]).map (·.username)).Nodup := by
  rw [List.map_append, List.map_singleton]
  refine List.nodup_append.mpr ⟨h, List.nodup_singleton _, fun name hmem other hother => ?_⟩
  rw [List.mem_singleton.mp hother]
  exact ne_of_mem_of_not_mem hmem hfree

theorem nodup_map_change {α : Type} {key : Account → α} {change : Account → Account}
    (hkey : ∀ row, key (change row) = key row) (h : (rows.map key).Nodup) :
    ((rows.map change).map key).Nodup := by
  have hsame : key ∘ change = key := funext hkey
  rw [List.map_map, hsame]
  exact h

/-- Rows that all have one name are at most one row. -/
theorem countP_le_one {username : Text} (h : (rows.map (·.username)).Nodup)
    (hname : ∀ row ∈ rows, p row = true → row.username = username) : rows.countP p ≤ 1 := by
  induction rows with
  | nil => exact Nat.zero_le 1
  | cons first rows ih =>
      rw [List.map_cons, List.nodup_cons] at h
      have hrest := ih h.2 fun row hrow => hname row (List.mem_cons_of_mem _ hrow)
      rw [List.countP_cons]
      split_ifs with hfirst
      · -- nobody else has the name of the first row
        have hzero : rows.countP p = 0 := by
          refine List.countP_eq_zero.mpr fun row hrow hp => h.1 ?_
          have hsame : row.username = first.username :=
            (hname row (List.mem_cons_of_mem _ hrow) hp).trans
              (hname first List.mem_cons_self hfirst).symm
          rw [← hsame]
          exact List.mem_map_of_mem hrow
        rw [hzero]
      · exact hrest

end Rows

/-- The table, with its primary key and its unique names. -/
structure Accounts where
  rows : List Account
  ids : (rows.map (·.id)).Nodup
  usernames : (rows.map (·.username)).Nodup

namespace Accounts

def empty : Accounts := ⟨[], List.nodup_nil, List.nodup_nil⟩

def getByUsername (accounts : Accounts) (username : Text) : Option Account :=
  accounts.rows.find? (·.username = username)

def getById (accounts : Accounts) (id : ℕ) : Option Account := accounts.rows.find? (·.id = id)

def hasAdmin (accounts : Accounts) : Bool := accounts.rows.any (·.isAdmin)

/-- `INSERT`; no value stands for an error of integrity. -/
def create (accounts : Accounts) (username passwordHash role : Text) : Option Accounts :=
  if h : username ∈ accounts.rows.map (·.username) then none
  else
    some {
      rows := accounts.rows ++ [{ id := nextId accounts.rows, username, passwordHash, role }]
      ids := nodup_ids_append accounts.ids rfl
      usernames := nodup_usernames_append accounts.usernames h }

/-- `UPDATE` of the row with a key, but not of its key and its name. -/
def update (accounts : Accounts) (id : ℕ) (passwordHash : Text → Text) (login : User → User) :
    Accounts where
  rows := accounts.rows.map (Account.change id passwordHash login)
  ids := nodup_map_change Account.change_id accounts.ids
  usernames := nodup_map_change Account.change_username accounts.usernames

section Created
variable {accounts accounts' : Accounts} {username passwordHash role : Text}

/-- The rows of a table that a row has been added to. -/
theorem rows_of_create (h : accounts.create username passwordHash role = some accounts') :
    accounts'.rows =
      accounts.rows ++ [{ id := nextId accounts.rows, username, passwordHash, role }] := by
  rw [create] at h
  split_ifs at h
  rw [← Option.some.inj h]

end Created

end Accounts

/-- The two ways to the first administrator. -/
inductive BootCall where
  | initAdmin (request : Request)
  | initDefaultAdmin

inductive BootAnswer where
  | created
  | existing
  | refused (status : ℕ) (detail : String)
  | raised (error : String)
  deriving DecidableEq, Repr

/-- Where a call is: no administrator was found once, then twice or nobody with the name, and then
nobody with the name by `create_user`. -/
inductive BootStage where
  | started
  | asked
  | checked
  | free
  | ended (answer : BootAnswer)
  deriving DecidableEq, Repr

/-- `ADMIN_USERNAME` and `ADMIN_PASSWORD`. -/
structure AdminEnv where
  username : Text := "admin".toList
  password : Option Text

/-- How a call ends by an error of `create_user`. -/
def BootCall.failed : BootCall → String → BootStage
  | .initAdmin _, _ => .ended (.refused 500 "Failed to initialize admin")
  | .initDefaultAdmin, error => .ended (.raised error)

/-- The next read or write of a call. The hash has a salt of its own. -/
def BootCall.next (env : AdminEnv) (passwordHash : Text) (accounts : Accounts) :
    BootCall → BootStage → Option (BootStage × Accounts)
  | .initAdmin _, .started =>
      if accounts.hasAdmin then
        some (.ended (.refused 409 "Admin user already initialized"), accounts)
      else some (.asked, accounts)
  | .initAdmin request, .asked =>
      if request.canBootstrap accounts.hasAdmin = false then
        some (.ended (.refused 403 "Init-admin is only available for local first-time bootstrap"),
          accounts)
      else if given env.password = none then
        some (.ended (.refused 500 "Admin bootstrap password is not configured"), accounts)
      else some (.checked, accounts)
  | .initDefaultAdmin, .started =>
      if given env.password = none then
        some (.ended (.raised
          "ADMIN_PASSWORD must be configured before initializing the default admin"), accounts)
      else if (accounts.getByUsername env.username).isSome then some (.ended .existing, accounts)
      else some (.checked, accounts)
  | call, .checked =>
      if (accounts.getByUsername env.username).isSome then
        some (call.failed ("用户名已存在: " ++ String.ofList env.username), accounts)
      else some (.free, accounts)
  | call, .free =>
      match accounts.create env.username passwordHash "admin".toList with
      | none => some (call.failed "UNIQUE constraint failed: users.username", accounts)
      | some accounts => some (.ended .created, accounts)
  | .initDefaultAdmin, .asked | _, .ended _ => none

/-- The table and the calls of all workers. -/
structure Bootstrap where
  accounts : Accounts
  calls : List (BootCall × BootStage) := []

inductive BootEvent where
  | begin (call : BootCall)
  | advance (i : ℕ) (passwordHash : Text)

namespace Bootstrap

def step (env : AdminEnv) (s : Bootstrap) : BootEvent → Option Bootstrap
  | .begin call => some { s with calls := s.calls ++ [(call, .started)] }
  | .advance i passwordHash => do
      let (call, stage) ← s.calls[i]?
      let (stage, accounts) ← call.next env passwordHash s.accounts stage
      return { accounts, calls := s.calls.set i (call, stage) }

/-- Whether a call has made the administrator. -/
def hasCreated (call : BootCall × BootStage) : Bool := call.2 = .ended .created

def created (s : Bootstrap) : ℕ := s.calls.countP hasCreated

def admins (s : Bootstrap) : ℕ := s.accounts.rows.countP (·.isAdmin)

/-- Every administrator has the name that is configured and was made by a call of its own. -/
structure Accounted (env : AdminEnv) (s : Bootstrap) : Prop where
  named : ∀ row ∈ s.accounts.rows, row.isAdmin = true → row.username = env.username
  counted : s.created = s.admins

section Steps
variable {env : AdminEnv} {s s' : Bootstrap} {call : BootCall} {stage stage' : BootStage}
  {accounts accounts' : Accounts} {passwordHash : Text}

theorem failed_ne_created (call : BootCall) (error : String) : call.failed error ≠ .ended .created := by
  cases call <;> (intro h; cases h)

/-- All that one access to the table can do: only an insertion changes it and tells of success. -/
theorem next_cases (h : call.next env passwordHash accounts stage = some (stage', accounts')) :
    stage ≠ .ended .created ∧
      (accounts' = accounts ∧ stage' ≠ .ended .created ∨
        accounts.create env.username passwordHash "admin".toList = some accounts' ∧
          stage' = .ended .created) := by
  unfold BootCall.next at h
  split at h
  · refine ⟨BootStage.noConfusion, .inl ?_⟩
    split_ifs at h <;> (cases h; exact ⟨rfl, fun h => by cases h⟩)
  · refine ⟨BootStage.noConfusion, .inl ?_⟩
    split_ifs at h <;> (cases h; exact ⟨rfl, fun h => by cases h⟩)
  · refine ⟨BootStage.noConfusion, .inl ?_⟩
    split_ifs at h <;> (cases h; exact ⟨rfl, fun h => by cases h⟩)
  · refine ⟨BootStage.noConfusion, .inl ?_⟩
    split_ifs at h
    · cases h
      exact ⟨rfl, failed_ne_created _ _⟩
    · cases h
      exact ⟨rfl, fun h => by cases h⟩
  · refine ⟨BootStage.noConfusion, ?_⟩
    cases hcreate : accounts.create env.username passwordHash "admin".toList with
    | none =>
        rw [hcreate] at h
        cases h
        exact .inl ⟨rfl, failed_ne_created _ _⟩
    | some made =>
        rw [hcreate] at h
        cases h
        exact .inr ⟨rfl, rfl⟩
  · cases h
  · cases h

theorem Accounted.step {e : BootEvent} (h : s.Accounted env) (hstep : s.step env e = some s') :
    s'.Accounted env := by
  cases e with
  | begin call =>
      cases hstep
      refine ⟨h.named, ?_⟩
      have hsame : (s.calls ++ [(call, BootStage.started)]).countP hasCreated = s.calls.countP hasCreated :=
        Counting.countP_concat_of_neg rfl
      exact hsame.trans h.counted
  | advance i passwordHash =>
      rw [Bootstrap.step] at hstep
      obtain ⟨⟨call, stage⟩, hcall, hstep⟩ := Option.bind_eq_some_iff.mp hstep
      obtain ⟨⟨stage', accounts'⟩, hnext, hstep⟩ := Option.bind_eq_some_iff.mp hstep
      cases hstep
      obtain ⟨hold, hcases⟩ := next_cases hnext
      have hset := Counting.countP_set_add (p := hasCreated) (b := (call, stage')) hcall
      have hbefore : hasCreated (call, stage) = false := decide_eq_false hold
      rw [hbefore] at hset
      rcases hcases with ⟨rfl, hnew⟩ | ⟨hcreate, rfl⟩
      · have hafter : hasCreated (call, stage') = false := decide_eq_false hnew
        rw [hafter] at hset
        exact ⟨h.named, (Nat.add_right_cancel hset).trans h.counted⟩
      · have hrows := Accounts.rows_of_create hcreate
        refine ⟨fun row hrow hadmin => ?_, ?_⟩
        · rw [hrows] at hrow
          rcases List.mem_append.mp hrow with hrow | hrow
          · exact h.named row hrow hadmin
          · rw [List.mem_singleton.mp hrow]
        · have hcounted : s.calls.countP hasCreated = s.accounts.rows.countP (·.isAdmin) := h.counted
          rw [created, admins, hrows, List.countP_append, List.countP_singleton, ← hcounted]
          exact hset

end Steps

/-- However the calls overlap, there is at most one administrator, and as many calls have made one. -/
theorem at_most_one_admin (env : AdminEnv) (accounts : Accounts) (hnone : accounts.hasAdmin = false)
    (events : List BootEvent) :
    PartialRun.Throughout (step env) (fun s => s.created = s.admins ∧ s.admins ≤ 1) { accounts }
      events := by
  have hrows : ∀ row ∈ accounts.rows, ¬ row.isAdmin = true := by
    intro row hrow hadmin
    have hany : accounts.hasAdmin = true := List.any_eq_true.mpr ⟨row, hrow, hadmin⟩
    rw [hnone] at hany
    cases hany
  have hinit : Accounted env { accounts } :=
    ⟨fun row hrow hadmin => absurd hadmin (hrows row hrow), (List.countP_eq_zero.mpr hrows).symm⟩
  intro pre _ s hrun
  have hs : s.Accounted env :=
    PartialRun.invariant_of_step (fun _ _ _ h hstep => h.step hstep) hinit hrun
  exact ⟨hs.counted, countP_le_one s.accounts.usernames hs.named⟩

/-- A request and a worker that starts, each of which finds nobody before the other inserts. -/
def overlappingCalls : List BootEvent :=
  [.begin .initDefaultAdmin, .begin (.initAdmin { path := [], client := some "127.0.0.1".toList }),
    .advance 0 [], .advance 1 [], .advance 1 [], .advance 1 [], .advance 0 [], .advance 1 ['a'],
    .advance 0 ['b']]

theorem overlapping_calls_make_one : ∃ s,
    PartialRun.exec (step { password := some ['p'] }) { accounts := .empty } overlappingCalls =
      some s ∧ s.calls.map (·.2) = [.ended (.raised "UNIQUE constraint failed: users.username"),
        .ended .created] ∧ s.created = s.admins ∧ s.admins ≤ 1 :=
  ⟨_, rfl, rfl, at_most_one_admin { password := some ['p'] } .empty rfl overlappingCalls _
    List.prefix_rfl _ rfl⟩

end Bootstrap

end SmartMedia.Auth
