import Mathlib.Algebra.Order.Ring.Int
import SmartMedia.Scheduler.TaskScheduler

/-!
# The next run of a task

The next run should lie ahead. The interval is added to the beginning of an hour, a day or a month,
so it has to reach beyond the present moment, and not beyond the month that is meant.
-/
namespace SmartMedia.Scheduler
open Calendar

/-- The first midnight of a weekday after `now`. -/
structure NextMidnight (now : DateTime) (weekday : ℤ) (t : DateTime) : Prop where
  midnight : t.time = {}
  day : t.date.weekday = weekday
  later : now < t
  least : ∀ m : DateTime, m.time = {} → m.date.weekday = weekday → now < m → t ≤ m

/-- The first midnight of the month that is `months` months after that of `now`. -/
def monthsLater (now : DateTime) (months : ℤ) : DateTime :=
  { midnightOf now with date := firstOf (now.date.monthIndex + months.toNat) }

/-- What the next run should be. -/
def Expected (now : DateTime) (value : ℤ) (t : DateTime) : IntervalType → Prop
  | .weekly => NextMidnight now value t
  | .monthly => t = monthsLater now value
  | _ => True

/-- The next run is found, lies ahead and is the expected one; a run that ends now is not followed by
another one at once. -/
structure Task.RunsAhead (task : Task) (kind : IntervalType) (now : DateTime) : Prop where
  ahead : ∃ t, task.calculateNextRun now = .ok { task with nextRun := some t } ∧ now < t ∧
    Expected now task.intervalValue t kind
  waits : task.status ≠ .running → ∀ started failure handlers tasks,
    ∃ task', task.run started now failure = .ok task' ∧ task' ∉ startedAt handlers tasks now

/-- The last moment of the year 9999 is not passed. -/
def Fits (start : DateTime) (delta : ℤ) : Prop :=
  start.micros + delta < (maxOrdinal + 1) * microsPerDay

/-- The days of a weekday ahead. -/
def daysAhead (now : DateTime) (weekday : ℤ) : ℤ := (weekday - now.date.weekday) % 7

/-- The interval reaches a later moment that there is, and the month that is meant. -/
def Reaches (now : DateTime) (value : ℤ) : IntervalType → Prop
  | .minute => Fits now (value * 60000000)
  | .hourly => Fits (hourOf now) (value * 3600000000)
  | .daily => Fits (midnightOf now) (value * microsPerDay)
  | .weekly =>
      now.date.weekday ≠ value ∧ Fits (midnightOf now) (daysAhead now value * microsPerDay)
  | .monthly =>
      daysBefore now.date.monthIndex + 32 * value.toNat <
          daysBefore (now.date.monthIndex + value.toNat + 1) ∧
        now.date.monthIndex + value.toNat < 12 * 9999

section Sums
variable {start now t : DateTime} {delta : ℤ} {days : ℕ}

theorem microsPerDay_le (moment : DateTime) : microsPerDay ≤ moment.micros := by
  have hday := moment.date.ordinal_pos
  rw [DateTime.micros, microsPerDay]
  omega

theorem add_eq_some (hdelta : 0 ≤ delta) :
    add start delta = some t ↔ Fits start delta ∧ ofMicros (start.micros + delta.toNat) = t := by
  have hstart := microsPerDay_le start
  have hsum : (start.micros + delta).toNat = start.micros + delta.toNat := by omega
  rw [add, Fits, hsum]
  split_ifs with hfits
  · rw [Option.some.injEq]
    exact ⟨fun h => ⟨hfits.2, h⟩, And.right⟩
  · refine iff_of_false id ?_
    rintro ⟨hbelow, -⟩
    exact hfits ⟨by omega, hbelow⟩

theorem micros_sum (start : DateTime) (n : ℕ) : (ofMicros (start.micros + n)).micros = start.micros + n :=
  micros_ofMicros ((microsPerDay_le start).trans (Nat.le_add_right _ _))

theorem monthsLater_eq (now : DateTime) (months : ℤ) :
    monthsLater now months = ⟨firstOf (now.date.monthIndex + months.toNat), {}⟩ := rfl

theorem micros_midnight (date : Date) : (⟨date, {}⟩ : DateTime).micros = date.ordinal * microsPerDay := by
  have hzero : Time.micros {} = 0 := rfl
  rw [DateTime.micros, hzero, Nat.add_zero]

/-- Days added to a midnight. -/
theorem ofMicros_days (date : Date) (days : ℕ) :
    ofMicros ((⟨date, {}⟩ : DateTime).micros + days * microsPerDay) =
      ⟨fromOrdinal (date.ordinal + days), {}⟩ := by
  have hzero : Time.ofMicros 0 = {} := rfl
  rw [micros_midnight, ← Nat.add_mul, ofMicros, Nat.mul_div_cancel _ (by decide), Nat.mul_mod_left,
    hzero]

theorem micros_midnightOf_add (now : DateTime) : now.micros < (midnightOf now).micros + microsPerDay := by
  rw [midnightOf, micros_midnight, DateTime.micros]
  exact Nat.add_lt_add_left now.time.micros_lt _

theorem micros_hourOf_add (now : DateTime) : now.micros < (hourOf now).micros + 3600000000 := by
  have hminute := now.time.minute_lt
  have hsecond := now.time.second_lt
  have hmicrosecond := now.time.microsecond_lt
  rw [DateTime.micros, DateTime.micros, hourOf, Time.micros, Time.micros]
  dsimp only
  omega

end Sums

section Kinds
variable {task : Task} {kind : IntervalType} {now t : DateTime} {P : DateTime → Prop} {value : ℤ}

/-- Where the interval is added. -/
def IntervalType.start (now : DateTime) : IntervalType → DateTime
  | .minute => now
  | .hourly => hourOf now
  | .daily => midnightOf now
  | .weekly => midnightOf now
  | .monthly => firstMidnightOf now

/-- The microseconds that are added. -/
def IntervalType.delta (now : DateTime) (value : ℤ) : IntervalType → ℤ
  | .minute => value * 60000000
  | .hourly => value * 3600000000
  | .daily => value * microsPerDay
  | .weekly => daysAhead now value * microsPerDay
  | .monthly => 32 * value * microsPerDay

/-- What becomes of the sum. -/
def IntervalType.settle (sum : DateTime) : IntervalType → DateTime
  | .monthly => ⟨sum.date.firstOfMonth, sum.time⟩
  | _ => sum

def IntervalType.found (now : DateTime) (value : ℤ) (kind : IntervalType) : DateTime :=
  kind.settle (ofMicros ((kind.start now).micros + (kind.delta now value).toNat))

theorem found_eq_some (hdelta : 0 ≤ kind.delta now value) :
    (add (kind.start now) (kind.delta now value)).map kind.settle = some t ↔
      Fits (kind.start now) (kind.delta now value) ∧ kind.found now value = t := by
  rw [Option.map_eq_some_iff]
  simp only [add_eq_some hdelta]
  constructor
  · rintro ⟨sum, ⟨hfits, rfl⟩, rfl⟩
    exact ⟨hfits, rfl⟩
  · rintro ⟨hfits, rfl⟩
    exact ⟨_, ⟨hfits, rfl⟩, rfl⟩

/-- One account of the five branches. -/
theorem calculateNextRun_eq_ok (hkind : task.intervalType = some kind) :
    task.calculateNextRun now = .ok { task with nextRun := some t } ↔
      (add (kind.start now) (kind.delta now task.intervalValue)).map kind.settle = some t := by
  rw [Task.calculateNextRun, hkind]
  cases kind with
  | minute =>
      dsimp only [IntervalType.start, IntervalType.delta]
      cases add now (task.intervalValue * 60000000) <;> simp [IntervalType.settle]
  | hourly =>
      dsimp only [IntervalType.start, IntervalType.delta, Task.advanceFrom]
      cases add (hourOf now) (task.intervalValue * 3600000000) <;>
        simp [IntervalType.settle, hkind]
  | daily =>
      dsimp only [IntervalType.start, IntervalType.delta, Task.advanceFrom]
      cases add (midnightOf now) (task.intervalValue * microsPerDay) <;>
        simp [IntervalType.settle, hkind]
  | weekly =>
      dsimp only [IntervalType.start, IntervalType.delta, Task.advanceFrom, daysAhead]
      cases add (midnightOf now) ((task.intervalValue - now.date.weekday) % 7 * microsPerDay) <;>
        simp [IntervalType.settle, hkind]
  | monthly =>
      dsimp only [IntervalType.start, IntervalType.delta, Task.advanceFrom]
      cases add (firstMidnightOf now) (32 * task.intervalValue * microsPerDay) with
      | none => simp [bind, Except.bind]
      | some sum => simp [IntervalType.settle, bind, Except.bind, pure, Except.pure, hkind]

theorem delta_nonneg (hvalue : kind ≠ .weekly → 1 ≤ value) : 0 ≤ kind.delta now value := by
  have hpositive : kind ≠ .weekly → 0 ≤ value := fun h => zero_le_one.trans (hvalue h)
  cases kind with
  | minute => exact mul_nonneg (hpositive (by decide)) (by decide)
  | hourly => exact mul_nonneg (hpositive (by decide)) (by decide)
  | daily => exact mul_nonneg (hpositive (by decide)) (Int.natCast_nonneg _)
  | weekly => exact mul_nonneg (Int.emod_nonneg _ (by decide)) (Int.natCast_nonneg _)
  | monthly =>
      exact mul_nonneg (mul_nonneg (by decide) (hpositive (by decide))) (Int.natCast_nonneg _)

/-- The next run is the expected one exactly if the sum is. -/
theorem ahead_iff (hkind : task.intervalType = some kind)
    (hvalue : kind ≠ .weekly → 1 ≤ task.intervalValue) :
    (∃ t, task.calculateNextRun now = .ok { task with nextRun := some t } ∧ P t) ↔
      Fits (kind.start now) (kind.delta now task.intervalValue) ∧
        P (kind.found now task.intervalValue) := by
  simp only [calculateNextRun_eq_ok hkind, found_eq_some (delta_nonneg hvalue)]
  constructor
  · rintro ⟨t, ⟨hfits, rfl⟩, hP⟩
    exact ⟨hfits, hP⟩
  · rintro ⟨hfits, hP⟩
    exact ⟨_, ⟨hfits, rfl⟩, hP⟩

/-- A day of the week ahead, as it is computed. -/
theorem found_weekly (now : DateTime) (value : ℤ) :
    IntervalType.weekly.found now value =
      ⟨fromOrdinal (now.date.ordinal + (daysAhead now value).toNat), {}⟩ := by
  have hdays : (daysAhead now value * (microsPerDay : ℤ)).toNat =
      (daysAhead now value).toNat * microsPerDay := by
    have hnonneg : 0 ≤ daysAhead now value := Int.emod_nonneg _ (by decide)
    rw [Int.toNat_mul hnonneg (Int.natCast_nonneg _), Int.toNat_natCast]
  rw [IntervalType.found, IntervalType.delta, IntervalType.start, IntervalType.settle, hdays]
  · exact ofMicros_days now.date _
  · exact IntervalType.noConfusion

theorem found_monthly (hvalue : 0 ≤ value) :
    IntervalType.monthly.found now value =
      ⟨firstOf (fromOrdinal (daysBefore now.date.monthIndex + 1 + 32 * value.toNat)).monthIndex, {}⟩ := by
  have hdays : (32 * value * (microsPerDay : ℤ)).toNat = 32 * value.toNat * microsPerDay := by
    rw [Int.toNat_mul (mul_nonneg (by decide) hvalue) (Int.natCast_nonneg _), Int.toNat_natCast,
      Int.toNat_mul (by decide) hvalue]
    rfl
  rw [IntervalType.found, IntervalType.delta, IntervalType.start, IntervalType.settle, hdays,
    firstMidnightOf, ofMicros_days, Date.firstOfMonth_eq, Date.firstOfMonth_eq, ordinal_firstOf]

theorem lt_iff {earlier later : DateTime} : earlier < later ↔ earlier.micros < later.micros := Iff.rfl

/-- Minutes, hours and days are added to a moment that is less than one of them ago. -/
theorem lt_found (hkind : kind = .minute ∨ kind = .hourly ∨ kind = .daily) (hvalue : 1 ≤ value) :
    now < kind.found now value := by
  have hhour := micros_hourOf_add now
  have hday := micros_midnightOf_add now
  rcases hkind with rfl | rfl | rfl
  · rw [lt_iff, IntervalType.found, IntervalType.settle, micros_sum, IntervalType.start,
      IntervalType.delta]
    · omega
    · exact IntervalType.noConfusion
  · rw [lt_iff, IntervalType.found, IntervalType.settle, micros_sum, IntervalType.start,
      IntervalType.delta]
    · omega
    · exact IntervalType.noConfusion
  · rw [lt_iff, IntervalType.found, IntervalType.settle, micros_sum, IntervalType.start,
      IntervalType.delta]
    · rw [microsPerDay] at hday ⊢
      omega
    · exact IntervalType.noConfusion

/-- The same day of the week is not looked for in the next one. -/
theorem nextMidnight_iff (now : DateTime) (hvalue : 0 ≤ value ∧ value ≤ 6) :
    NextMidnight now value (IntervalType.weekly.found now value) ↔ now.date.weekday ≠ value := by
  have hordinal : (fromOrdinal (now.date.ordinal + (daysAhead now value).toNat)).ordinal =
      now.date.ordinal + (daysAhead now value).toNat :=
    ordinal_fromOrdinal (now.date.ordinal_pos.trans (Nat.le_add_right _ _))
  have hahead : daysAhead now value = (value - now.date.weekday) % 7 := rfl
  have hweekday : now.date.weekday = (now.date.ordinal + 6) % 7 := rfl
  have htime := now.time.micros_lt
  rw [found_weekly]
  constructor
  · intro h heq
    have hlater := h.later
    rw [lt_iff, micros_midnight, hordinal, DateTime.micros, hahead, heq, sub_self] at hlater
    exact absurd hlater (Nat.not_lt.mpr (Nat.le_add_right _ _))
  · intro hne
    have hpositive : 1 ≤ (daysAhead now value).toNat := by omega
    refine ⟨rfl, ?_, ?_, ?_⟩
    · dsimp only
      rw [Date.weekday, hordinal]
      omega
    · rw [lt_iff, micros_midnight, hordinal, DateTime.micros]
      rw [microsPerDay] at htime ⊢
      omega
    · rintro ⟨date, time⟩ htime' hday hlater
      obtain rfl : time = {} := htime'
      rw [lt_iff, micros_midnight, DateTime.micros] at hlater
      have hafter : now.date.ordinal < date.ordinal :=
        Nat.lt_of_mul_lt_mul_right ((Nat.le_add_right _ _).trans_lt hlater)
      have hdate : date.weekday = (date.ordinal + 6) % 7 := rfl
      have hle : now.date.ordinal + (daysAhead now value).toNat ≤ date.ordinal := by
        dsimp only at hday
        omega
      change DateTime.micros _ ≤ DateTime.micros _
      rw [micros_midnight, micros_midnight, hordinal]
      exact Nat.mul_le_mul_right _ hle

/-- Thirty-two days for each month lead to the month that is meant, or beyond it. -/
theorem found_eq_monthsLater_iff (now : DateTime) (hvalue : 0 ≤ value) :
    IntervalType.monthly.found now value = monthsLater now value ↔
      daysBefore now.date.monthIndex + 32 * value.toNat <
        daysBefore (now.date.monthIndex + value.toNat + 1) := by
  have hbound := daysBefore_add_le now.date.monthIndex value.toNat
  have hordinal : (fromOrdinal (daysBefore now.date.monthIndex + 1 + 32 * value.toNat)).ordinal =
      daysBefore now.date.monthIndex + 1 + 32 * value.toNat :=
    ordinal_fromOrdinal (by omega)
  have hmonth : (fromOrdinal (daysBefore now.date.monthIndex + 1 + 32 * value.toNat)).monthIndex =
      now.date.monthIndex + value.toNat ↔ _ := Date.monthIndex_eq_iff _
  rw [hordinal] at hmonth
  rw [found_monthly hvalue, monthsLater_eq]
  constructor
  · intro h
    have hindex := congrArg (fun moment => moment.date.monthIndex) h
    dsimp only at hindex
    rw [monthIndex_firstOf, monthIndex_firstOf] at hindex
    have hrange := hmonth.mp hindex
    omega
  · intro h
    rw [hmonth.mpr (by omega)]

theorem lt_monthsLater (hvalue : 1 ≤ value) : now < monthsLater now value := by
  have hnow : now.date.ordinal ≤ daysBefore (now.date.monthIndex + 1) :=
    ((Date.monthIndex_eq_iff now.date).mp rfl).2
  have hmono : daysBefore (now.date.monthIndex + 1) ≤
      daysBefore (now.date.monthIndex + value.toNat) := daysBefore_mono (by omega)
  have htime := now.time.micros_lt
  rw [lt_iff, monthsLater_eq, micros_midnight, ordinal_firstOf, DateTime.micros]
  rw [microsPerDay] at htime ⊢
  omega

/-- The ordinals end with the year 9999. -/
theorem daysBefore_maxOrdinal : daysBefore (12 * 9999) = maxOrdinal := by decide

theorem fits_monthly_iff (hvalue : 0 ≤ value)
    (hmonth : daysBefore now.date.monthIndex + 32 * value.toNat <
      daysBefore (now.date.monthIndex + value.toNat + 1)) :
    Fits (IntervalType.monthly.start now) (IntervalType.monthly.delta now value) ↔
      now.date.monthIndex + value.toNat < 12 * 9999 := by
  have hbound := daysBefore_add_le now.date.monthIndex value.toNat
  have hfits : Fits (IntervalType.monthly.start now) (IntervalType.monthly.delta now value) ↔
      daysBefore now.date.monthIndex + 32 * value.toNat < maxOrdinal := by
    rw [Fits, IntervalType.start, IntervalType.delta, firstMidnightOf, micros_midnight,
      Date.firstOfMonth_eq, ordinal_firstOf, microsPerDay]
    push_cast
    omega
  rw [hfits, ← daysBefore_maxOrdinal]
  constructor
  · intro h
    by_contra hlate
    have hmono : daysBefore (12 * 9999) ≤ daysBefore (now.date.monthIndex + value.toNat) :=
      daysBefore_mono (Nat.not_lt.mp hlate)
    omega
  · intro h
    have hmono : daysBefore (now.date.monthIndex + value.toNat + 1) ≤ daysBefore (12 * 9999) :=
      daysBefore_mono h
    omega

/-- The condition of each kind. -/
theorem reaches_iff (hvalue : if kind = .weekly then 0 ≤ value ∧ value ≤ 6 else 1 ≤ value) :
    Reaches now value kind ↔ Fits (kind.start now) (kind.delta now value) ∧
      now < kind.found now value ∧ Expected now value (kind.found now value) kind := by
  cases kind with
  | minute =>
      have hlater : now < IntervalType.minute.found now value := lt_found (.inl rfl) hvalue
      exact ⟨fun h => ⟨h, hlater, trivial⟩, And.left⟩
  | hourly =>
      have hlater : now < IntervalType.hourly.found now value := lt_found (.inr (.inl rfl)) hvalue
      exact ⟨fun h => ⟨h, hlater, trivial⟩, And.left⟩
  | daily =>
      have hlater : now < IntervalType.daily.found now value := lt_found (.inr (.inr rfl)) hvalue
      exact ⟨fun h => ⟨h, hlater, trivial⟩, And.left⟩
  | weekly =>
      rw [if_pos rfl] at hvalue
      have hnext := nextMidnight_iff now hvalue
      constructor
      · rintro ⟨hday, hfits⟩
        exact ⟨hfits, (hnext.mpr hday).later, hnext.mpr hday⟩
      · rintro ⟨hfits, -, hexpected⟩
        exact ⟨hnext.mp hexpected, hfits⟩
  | monthly =>
      have hpositive : 1 ≤ value := hvalue
      have hnonneg : 0 ≤ value := zero_le_one.trans hpositive
      have hmonth := found_eq_monthsLater_iff now hnonneg
      constructor
      · rintro ⟨hreach, hyear⟩
        have hfound := hmonth.mpr hreach
        exact ⟨(fits_monthly_iff hnonneg hreach).mpr hyear, hfound ▸ lt_monthsLater hpositive, hfound⟩
      · rintro ⟨hfits, -, hexpected⟩
        have hreach := hmonth.mp hexpected
        exact ⟨hreach, (fits_monthly_iff hnonneg hreach).mp hfits⟩

/-- A task whose next run lies ahead is not due. -/
theorem not_startedAt {task' : Task} (hnext : task'.nextRun = some t) (hlater : now < t)
    (handlers : List TaskMode) (tasks : List Task) : task' ∉ startedAt handlers tasks now := by
  have hdue : ¬ t ≤ now := Nat.not_le.mpr hlater
  rw [startedAt, List.mem_filter, Task.shouldRun, hnext, Option.any_some, decide_eq_false hdue]
  simp

/-- The next run lies ahead and is the expected one, if the interval reaches it. -/
theorem runsAhead_iff (task : Task) (now : DateTime) (hkind : task.intervalType = some kind)
    (hvalue : if kind = .weekly then 0 ≤ task.intervalValue ∧ task.intervalValue ≤ 6
      else 1 ≤ task.intervalValue) :
    task.RunsAhead kind now ↔ Reaches now task.intervalValue kind := by
  have hpositive : kind ≠ .weekly → 1 ≤ task.intervalValue := by
    intro hne
    rwa [if_neg hne] at hvalue
  rw [reaches_iff hvalue]
  constructor
  · intro h
    exact (ahead_iff hkind hpositive).mp h.ahead
  · intro h
    refine ⟨(ahead_iff hkind hpositive).mpr h, ?_⟩
    intro hidle started failure handlers tasks
    rw [Task.run, if_neg hidle]
    generalize hran : { task with
      status := if failure.isSome then TaskStatus.failed else TaskStatus.completed
      lastRun := some started
      errorMessage := failure } = ran
    have hkind' : ran.intervalType = some kind := hran ▸ hkind
    have hvalue' : ran.intervalValue = task.intervalValue := hran ▸ rfl
    rw [← hvalue'] at h hpositive
    obtain ⟨t, hok, hlater⟩ := (ahead_iff (P := fun t => now < t) hkind' hpositive).mpr ⟨h.1, h.2.1⟩
    exact ⟨_, hok, not_startedAt rfl hlater handlers tasks⟩

theorem zero_lt_sixty : 0 < 60 := by decide

theorem zero_lt_million : 0 < 1000000 := by decide

/-- Half past ten on a Wednesday. -/
def wednesday : DateTime where
  date := ⟨2024, 5, 15, by decide, by decide, by decide⟩
  time := { hour := 10, minute := 30, second_lt := zero_lt_sixty, microsecond_lt := zero_lt_million }

def strmTask (kind : IntervalType) (value : ℤ) : Task :=
  { mode := .strmCreation, intervalType := some kind, intervalValue := value }

theorem runsAhead_month : (strmTask .monthly 1).RunsAhead .monthly wednesday :=
  (runsAhead_iff (strmTask .monthly 1) wednesday rfl (by decide)).mpr ⟨by decide, by decide⟩

/-- A task for Wednesdays is due again at once, and one for every twenty-one months misses a month. -/
theorem not_ahead_wednesday :
    ((strmTask .weekly 2).calculateNextRun wednesday =
        .ok { strmTask .weekly 2 with nextRun := some (midnightOf wednesday) } ∧
      { strmTask .weekly 2 with nextRun := some (midnightOf wednesday) }.shouldRun wednesday = true ∧
      ¬ (strmTask .weekly 2).RunsAhead .weekly wednesday) ∧
    ¬ (strmTask .monthly 21).RunsAhead .monthly wednesday := by
  have hweekly : (strmTask .weekly 2).calculateNextRun wednesday =
      .ok { strmTask .weekly 2 with nextRun := some (midnightOf wednesday) } := by decide
  have hmonthly : (strmTask .monthly 21).calculateNextRun wednesday =
      .ok { strmTask .monthly 21 with nextRun := some ⟨⟨2026, 3, 1, by decide, by decide, by decide⟩, {}⟩ } := by
    decide
  refine ⟨⟨hweekly, by decide, ?_⟩, ?_⟩
  · intro h
    obtain ⟨t, hok, hlater, -⟩ := h.ahead
    rw [hweekly] at hok
    obtain rfl : midnightOf wednesday = t := by
      injection hok with htask
      exact Option.some.inj (congrArg Task.nextRun htask)
    exact absurd hlater (by decide)
  · intro h
    obtain ⟨t, hok, -, hexpected⟩ := h.ahead
    rw [hmonthly, show t = monthsLater wednesday 21 from hexpected] at hok
    injection hok with htask
    exact absurd (congrArg Task.nextRun htask) (by decide)

end Kinds

end SmartMedia.Scheduler
