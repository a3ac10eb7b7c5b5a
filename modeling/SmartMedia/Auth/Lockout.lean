import SmartMedia.Auth.Login
import SmartMedia.Library.Counting

/-!
# The bound on wrong passwords

Attempts that overlap can count their failures from the same stored number, and any number
of passwords is verified before the first of them is counted. The bound holds when no
failure is written over a higher counter than the one its attempt has read, and failures
wait to be written only while they and the counter together are below the maximum.
-/
namespace SmartMedia.Auth

/-- The instance of an attempt that is not over. -/
def LoginStage.held : LoginStage → Option User
  | .verifying user | .wrong user | .right user => some user
  | .ended _ => none

/-- A failure that is not written. -/
def LoginStage.isWrong : LoginStage → Bool
  | .wrong _ => true
  | _ => false

theorem LoginStage.afterRead_isWrong (user : User) (now : ℤ) :
    (LoginStage.afterRead user now).isWrong = false := by
  rw [afterRead]
  cases accountError user now <;> rfl

theorem LoginStage.afterRead_held {user read : User} {now : ℤ}
    (h : (LoginStage.afterRead user now).held = some read) : read.isLocked now = false := by
  rw [afterRead] at h
  cases haccount : accountError user now with
  | some error =>
      rw [haccount] at h
      cases h
  | none =>
      rw [haccount] at h
      cases h
      rw [accountError] at haccount
      split_ifs at haccount with hactive hlocked
      exact Bool.not_eq_true _ ▸ hlocked

namespace User
variable {user : User} {limits : LoginLimits} {now later : ℤ}

/-- A lock that is over stays over. -/
theorem isLocked_later (h : user.isLocked now = false) (hle : now ≤ later) :
    user.isLocked later = false := by
  rw [isLocked] at h ⊢
  cases huntil : user.lockedUntil with
  | none => rfl
  | some until' =>
      rw [huntil] at h
      have hover : ¬ now < until' := of_decide_eq_false h
      exact decide_eq_false (by omega)

/-- The failure that reaches the maximum locks the row. -/
theorem increment_locks (row : User) (hminutes : 1 ≤ limits.lockDurationMinutes)
    (hread : user.isLocked now = false)
    (hmax : limits.maxLoginAttempts ≤ user.failedLoginAttempts + 1) :
    (user.commit (user.incrementFailedLogin limits now).1 row).isLocked now = true := by
  have huntil : (user.commit (user.incrementFailedLogin limits now).1 row).lockedUntil =
      some (now + limits.lockDurationMinutes * 60000000) := by
    have hmax' : limits.maxLoginAttempts ≤ ((user.failedLoginAttempts + 1 : ℕ) : ℤ) := by
      exact_mod_cast hmax
    rw [commit, incrementFailedLogin]
    simp only [hmax', if_true, column]
    rw [if_neg]
    intro hsame
    rw [isLocked, ← hsame] at hread
    have hover : ¬ now < now + limits.lockDurationMinutes * 60000000 := of_decide_eq_false hread
    omega
  rw [isLocked, huntil]
  exact decide_eq_true (by omega)

/-- Below the maximum only the counter changes. -/
theorem increment_counts (row : User)
    (hmax : ¬ limits.maxLoginAttempts ≤ user.failedLoginAttempts + 1) :
    (user.commit (user.incrementFailedLogin limits now).1 row).lockedUntil = row.lockedUntil := by
  have hmax' : ¬ limits.maxLoginAttempts ≤ ((user.failedLoginAttempts + 1 : ℕ) : ℤ) := by
    exact_mod_cast hmax
  rw [commit, incrementFailedLogin]
  simp only [hmax', if_false, column, if_true]

theorem increment_counter (limits : LoginLimits) (now : ℤ) (user row : User) :
    (user.commit (user.incrementFailedLogin limits now).1 row).failedLoginAttempts =
      user.failedLoginAttempts + 1 := by
  have hheld : (user.incrementFailedLogin limits now).1.failedLoginAttempts =
      user.failedLoginAttempts + 1 := by
    rw [incrementFailedLogin]
    split_ifs <;> rfl
  rw [commit]
  simp only [hheld, column]
  rw [if_neg (Nat.succ_ne_self _)]

end User

namespace LoginSystem

/-- How many failures are not written. -/
def unwritten (s : LoginSystem) : ℕ := s.attempts.countP (·.isWrong)

/-- A password is found wrong only while the failures that are not written and the counter
together are below the maximum, or nothing is unwritten; and no failure is written over a
counter above the one its attempt has read. -/
def Orderly (limits : LoginLimits) (s : LoginSystem) : LoginAction → Prop
  | .verify _ false => s.locked = true ∨ s.unwritten = 0 ∨
      (s.user.failedLoginAttempts + s.unwritten : ℤ) < limits.maxLoginAttempts
  | .store i => ∀ user, s.attempts[i]? = some (.wrong user) →
      s.user.failedLoginAttempts ≤ user.failedLoginAttempts
  | _ => True

/-- While the account is not locked, its counter and the unwritten failures cover what has
failed; a counter that has outlived its lock covers nothing. -/
structure Covered (limits : LoginLimits) (s : LoginSystem) : Prop where
  bound : (s.failures : ℤ) ≤ limits.maxLoginAttempts
  counted : s.locked = false → s.failures ≤ s.user.failedLoginAttempts + s.unwritten
  expired : s.locked = false → limits.maxLoginAttempts ≤ s.user.failedLoginAttempts →
    s.failures ≤ s.unwritten
  fresh : ∀ stage ∈ s.attempts, ∀ user, stage.held = some user → user.isLocked s.now = false

section Steps
variable {limits : LoginLimits} {s s' : LoginSystem} {i : ℕ} {new : LoginStage}

/-- The instances in the hands of attempts stay unlocked. -/
theorem Covered.fresh_set (h : s.Covered limits) (hnew : ∀ user, new.held = some user →
    user.isLocked s.now = false) :
    ∀ stage ∈ s.attempts.set i new, ∀ user, stage.held = some user → user.isLocked s.now = false := by
  intro stage hstage user huser
  rcases List.mem_or_eq_of_mem_set hstage with hstage | rfl
  · exact h.fresh stage hstage user huser
  · exact hnew user huser

/-- A right password changes nothing yet. -/
theorem Covered.right {user : User} (h : s.Covered limits)
    (hold : s.attempts[i]? = some (.verifying user)) :
    ({ s with attempts := s.attempts.set i (.right user) } : LoginSystem).Covered limits := by
  have hsame : ({ s with attempts := s.attempts.set i (.right user) } : LoginSystem).unwritten =
      s.unwritten := Counting.countP_set_add (p := LoginStage.isWrong) (b := .right user) hold
  refine ⟨h.bound, fun hfree => ?_, fun hfree hmax => ?_, h.fresh_set fun u hu => ?_⟩
  · rw [hsame]
    exact h.counted hfree
  · rw [hsame]
    exact h.expired hfree hmax
  · cases hu
    exact h.fresh _ (List.mem_of_getElem? hold) user rfl

/-- A wrong password is counted, but not yet in the row. -/
theorem Covered.wrong {user : User} (hattempts : 1 ≤ limits.maxLoginAttempts) (h : s.Covered limits)
    (hold : s.attempts[i]? = some (.verifying user)) (horderly : s.Orderly limits (.verify i false)) :
    ({ s with
      attempts := s.attempts.set i (.wrong user)
      failures := if s.locked then s.failures else s.failures + 1 } : LoginSystem).Covered
        limits := by
  have hmore : ({ s with
      attempts := s.attempts.set i (.wrong user)
      failures := if s.locked then s.failures else s.failures + 1 } : LoginSystem).unwritten =
      s.unwritten + 1 := Counting.countP_set_add (p := LoginStage.isWrong) (b := .wrong user) hold
  have hfresh : ∀ u, (LoginStage.wrong user).held = some u → u.isLocked s.now = false := by
    intro u hu
    cases hu
    exact h.fresh _ (List.mem_of_getElem? hold) user rfl
  cases hlocked : s.locked with
  | true =>
      have hstill : ∀ {P : Prop}, s.locked = false → P := fun hfree => by
        rw [hlocked] at hfree
        cases hfree
      exact ⟨h.bound, fun hfree => hstill hfree, fun hfree _ => hstill hfree, h.fresh_set hfresh⟩
  | false =>
      rw [hlocked] at hmore
      have hcounted := h.counted hlocked
      have hexpired := h.expired hlocked
      refine ⟨?_, fun _ => ?_, fun _ hmax => ?_, h.fresh_set hfresh⟩
      · have hbound : (s.failures : ℤ) + 1 ≤ limits.maxLoginAttempts := by
          rcases horderly with hl | hzero | hbelow
          · rw [hlocked] at hl
            cases hl
          · by_cases hmax : limits.maxLoginAttempts ≤ s.user.failedLoginAttempts
            · have hnone := hexpired hmax
              omega
            · omega
          · omega
        exact_mod_cast hbound
      · rw [hmore]
        exact Nat.add_le_add_right hcounted 1
      · rw [hmore]
        exact Nat.add_le_add_right (hexpired hmax) 1

/-- A failure that is written over no higher counter covers itself or locks the row. -/
theorem Covered.stored {user : User} {error : Option String}
    (hminutes : 1 ≤ limits.lockDurationMinutes) (h : s.Covered limits)
    (hold : s.attempts[i]? = some (.wrong user))
    (horderly : s.user.failedLoginAttempts ≤ user.failedLoginAttempts) :
    ({ s with
      user := user.commit (user.incrementFailedLogin limits s.now).1 s.user
      attempts := s.attempts.set i (.ended error) } : LoginSystem).Covered limits := by
  have hread := h.fresh _ (List.mem_of_getElem? hold) user rfl
  have hcounter := User.increment_counter limits s.now user s.user
  have hless : (s.attempts.set i (.ended error)).countP (·.isWrong) + 1 = s.unwritten :=
    Counting.countP_set_add hold
  have hfresh : ∀ stage ∈ s.attempts.set i (.ended error), ∀ u, stage.held = some u →
      u.isLocked s.now = false := h.fresh_set nofun
  by_cases hmax : limits.maxLoginAttempts ≤ user.failedLoginAttempts + 1
  · have hlocks := User.increment_locks s.user hminutes hread hmax
    have hstill : ∀ {P : Prop}, (user.commit (user.incrementFailedLogin limits s.now).1
        s.user).isLocked s.now = false → P := fun hfree => by
      rw [hlocks] at hfree
      cases hfree
    exact ⟨h.bound, fun hfree => hstill hfree, fun hfree _ => hstill hfree, hfresh⟩
  · have hkept : (user.commit (user.incrementFailedLogin limits s.now).1 s.user).isLocked s.now =
        s.locked := by
      rw [User.isLocked, User.increment_counts s.user hmax]
      rfl
    refine ⟨h.bound, fun hfree => ?_, fun hfree hreached => ?_, hfresh⟩
    · have hcounted := h.counted (hkept.symm.trans hfree)
      have hcovers : s.failures ≤ (user.failedLoginAttempts + 1) +
          (s.attempts.set i (.ended error)).countP (·.isWrong) := by omega
      rw [← hcounter] at hcovers
      exact hcovers
    · have hreached' : limits.maxLoginAttempts ≤ ((user.failedLoginAttempts + 1 : ℕ) : ℤ) := by
        rw [← hcounter]
        exact hreached
      exact absurd (by exact_mod_cast hreached') hmax

theorem Covered.step {a : LoginAction} (hattempts : 1 ≤ limits.maxLoginAttempts)
    (hminutes : 1 ≤ limits.lockDurationMinutes) (h : s.Covered limits)
    (horderly : s.Orderly limits a) (hstep : s.step limits a = some s') : s'.Covered limits := by
  cases a with
  | read =>
      cases hstep
      have hunwritten : ({ s with attempts := s.attempts ++ [.afterRead s.user s.now] } :
          LoginSystem).unwritten = s.unwritten :=
        Counting.countP_concat_of_neg (LoginStage.afterRead_isWrong s.user s.now)
      refine ⟨h.bound, fun hfree => ?_, fun hfree hmax => ?_, fun stage hstage user huser => ?_⟩
      · rw [hunwritten]
        exact h.counted hfree
      · rw [hunwritten]
        exact h.expired hfree hmax
      · rcases List.mem_append.mp hstage with hstage | hstage
        · exact h.fresh stage hstage user huser
        · rw [List.mem_singleton.mp hstage] at huser
          exact LoginStage.afterRead_held huser
  | verify i correct =>
      cases hold : s.attempts[i]? with
      | none => simp [LoginSystem.step, hold] at hstep
      | some old =>
          cases old with
          | verifying user =>
              simp only [LoginSystem.step, hold] at hstep
              cases hstep
              cases correct with
              | true => exact h.right hold
              | false => exact h.wrong hattempts hold horderly
          | _ => simp [LoginSystem.step, hold] at hstep
  | store i =>
      cases hold : s.attempts[i]? with
      | none => simp [LoginSystem.step, hold] at hstep
      | some old =>
          cases old with
          | right user =>
              simp only [LoginSystem.step, hold] at hstep
              cases hstep
              have hpositive : (0 : ℤ) ≤ limits.maxLoginAttempts := by omega
              exact ⟨hpositive, fun _ => Nat.zero_le _, fun _ _ => Nat.zero_le _,
                h.fresh_set fun user huser => (Option.some_ne_none user huser.symm).elim⟩
          | wrong user =>
              simp only [LoginSystem.step, hold] at hstep
              cases hstep
              exact h.stored hminutes hold (horderly user hold)
          | _ => simp [LoginSystem.step, hold] at hstep
  | tick elapsed =>
      cases hstep
      have hle : s.now ≤ s.now + elapsed := by omega
      have hfresh : ∀ stage ∈ s.attempts, ∀ user, stage.held = some user →
          user.isLocked (s.now + elapsed) = false := fun stage hstage user huser =>
        User.isLocked_later (h.fresh stage hstage user huser) hle
      cases hlocked : s.locked with
      | false =>
          -- what is not locked stays so
          refine ⟨?_, fun _ => ?_, fun _ hmax => ?_, hfresh⟩
          · exact h.bound
          · exact h.counted hlocked
          · exact h.expired hlocked hmax
      | true =>
          cases hlater : s.user.isLocked (s.now + elapsed) with
          | true =>
              have hstill : ∀ {P : Prop}, s.user.isLocked (s.now + elapsed) = false → P :=
                fun hfree => by
                  rw [hlater] at hfree
                  cases hfree
              exact ⟨h.bound, fun hfree => hstill hfree, fun hfree _ => hstill hfree, hfresh⟩
          | false =>
              have hpositive : (0 : ℤ) ≤ limits.maxLoginAttempts := by omega
              exact ⟨hpositive, fun _ => Nat.zero_le _, fun _ _ => Nat.zero_le _, hfresh⟩

end Steps

instance (limits : LoginLimits) (s : LoginSystem) : ∀ a, Decidable (s.Orderly limits a)
  | .verify _ false => inferInstanceAs (Decidable (s.locked = true ∨ s.unwritten = 0 ∨
      (s.user.failedLoginAttempts + s.unwritten : ℤ) < limits.maxLoginAttempts))
  | .store i =>
      match h : s.attempts[i]? with
      | some (.wrong user) =>
          decidable_of_iff (s.user.failedLoginAttempts ≤ user.failedLoginAttempts)
            ⟨fun hle u hu => (by cases h.symm.trans hu; exact hle), fun hall => hall user h⟩
      | none | some (.verifying _) | some (.right _) | some (.ended _) =>
          .isTrue fun _ hu => (by cases h.symm.trans hu)
  | .read | .verify _ true | .tick _ => .isTrue trivial

/-- No more than the maximum of passwords is found wrong before the account is locked, in
every run in which the counter loses no failure and failures wait to be written only while
they and the counter together are below the maximum. -/
theorem failures_bounded (limits : LoginLimits) (hattempts : 1 ≤ limits.maxLoginAttempts)
    (hminutes : 1 ≤ limits.lockDurationMinutes) (user : User) (now : ℤ)
    (actions : List LoginAction)
    (horderly : PartialRun.Along (step limits) (Orderly limits) { user := user, now := now }
      actions) :
    PartialRun.Throughout (step limits) (fun s => (s.failures : ℤ) ≤ limits.maxLoginAttempts)
      { user := user, now := now } actions := by
  have hpositive : (0 : ℤ) ≤ limits.maxLoginAttempts := by omega
  have hinit : Covered limits { user := user, now := now } :=
    ⟨hpositive, fun _ => Nat.zero_le _, fun _ _ => Nat.zero_le _, nofun⟩
  intro pre hpre s' hrun
  have hcovered : s'.Covered limits := PartialRun.throughout_of_along
    (fun s a s' h hP hstep => h.step hattempts hminutes hP hstep) hinit horderly pre hpre s' hrun
  exact hcovered.bound

/-- The `n`-th attempt, with a wrong password. -/
def failsAlone (n : ℕ) : List LoginAction := [.read, .verify n false, .store n]

/-- Six failures around the expiry of a lock, beside a success. -/
theorem six_failures_bounded :
    PartialRun.Throughout (step {}) (fun s => (s.failures : ℤ) ≤ 5) { user := {}, now := 0 }
      ([.read, .read, .verify 0 false, .verify 1 true, .store 1, .store 0] ++
        (List.range' 2 4).flatMap failsAlone ++ [.read, .tick 900000000] ++ failsAlone 7) :=
  failures_bounded {} (by decide) (by decide) {} 0 _ (by decide)

/-- Six attempts that have all read the row verify their passwords before any is counted. -/
theorem six_failures_at_once :
    ¬ PartialRun.Throughout (step {}) (fun s => (s.failures : ℤ) ≤ 5) { user := {}, now := 0 }
      (List.replicate 6 .read ++ (List.range 6).map (.verify · false)) := by
  intro h
  have hend := h _ List.prefix_rfl _ (Option.some_get (by decide)).symm
  revert hend
  decide

end LoginSystem

end SmartMedia.Auth
