import Mathlib.Data.Int.Notation
import Mathlib.Order.Nat
import Mathlib.Tactic.Common

/-!
# The proleptic Gregorian calendar

Dates are counted from the first of January of the year one, which has the ordinal one and is a
Monday. Months are counted from the same day, beginning with zero.
-/
namespace Calendar

section Dates

def isLeap (year : ℕ) : Bool := year % 4 = 0 && (year % 100 ≠ 0 || year % 400 = 0)

def daysInMonth (year month : ℕ) : ℕ :=
  if month = 2 then if isLeap year then 29 else 28
  else if month = 4 ∨ month = 6 ∨ month = 9 ∨ month = 11 then 30 else 31

def daysInYear (year : ℕ) : ℕ := if isLeap year then 366 else 365

/-- `date`, without a last year. -/
@[ext] structure Date where
  year : ℕ
  month : ℕ
  day : ℕ
  year_pos : 1 ≤ year
  month_range : 1 ≤ month ∧ month ≤ 12
  day_range : 1 ≤ day ∧ day ≤ daysInMonth year month
deriving DecidableEq

def daysBeforeYear (year : ℕ) : ℕ := (year - 1) * 365 + (year - 1) / 4 - (year - 1) / 100 + (year - 1) / 400

def daysBeforeMonth (year : ℕ) : ℕ → ℕ
  | 0 => 0
  | 1 => 0
  | month + 2 => daysBeforeMonth year (month + 1) + daysInMonth year (month + 1)

def Date.ordinal (date : Date) : ℕ :=
  daysBeforeYear date.year + daysBeforeMonth date.year date.month + date.day

/-- Monday is zero. -/
def Date.weekday (date : Date) : ℕ := (date.ordinal + 6) % 7

/-- The year and the number of days of it that are over, `n` days after the first. -/
def yearAndRest (n : ℕ) : ℕ × ℕ :=
  let centuries := n % 146097 / 36524
  let years := n % 146097 % 36524 % 1461 / 365
  let year := n / 146097 * 400 + centuries * 100 + n % 146097 % 36524 / 1461 * 4 + years + 1
  if centuries = 4 ∨ years = 4 then (year - 1, 365) else (year, n % 146097 % 36524 % 1461 % 365)

/-- The month, from `month` on, and the day in it, `rest` days after the first. -/
def monthAndDay (year : ℕ) : ℕ → ℕ → ℕ → ℕ × ℕ
  | 0, month, rest => (month, rest + 1)
  | months + 1, month, rest =>
      if rest < daysInMonth year month then (month, rest + 1)
      else monthAndDay year months (month + 1) (rest - daysInMonth year month)

theorem daysInMonth_range (year month : ℕ) : 28 ≤ daysInMonth year month ∧ daysInMonth year month ≤ 31 := by
  rw [daysInMonth]
  split_ifs <;> exact ⟨by decide, by decide⟩

theorem daysBeforeMonth_succ (year : ℕ) {month : ℕ} (h : 1 ≤ month) :
    daysBeforeMonth year (month + 1) = daysBeforeMonth year month + daysInMonth year month := by
  obtain ⟨m, rfl⟩ := Nat.exists_eq_add_of_le' h
  rfl

theorem daysBeforeMonth_end (year : ℕ) : daysBeforeMonth year 13 = daysInYear year := by
  simp only [daysBeforeMonth, daysInMonth, daysInYear]
  cases isLeap year <;> rfl

theorem daysBeforeYear_succ {year : ℕ} (h : 1 ≤ year) :
    daysBeforeYear (year + 1) = daysBeforeYear year + daysInYear year := by
  obtain ⟨y, rfl⟩ := Nat.exists_eq_add_of_le' h
  have hcenturies : y / 100 ≤ y / 4 := Nat.div_le_div_left (by decide) (by decide)
  rw [daysBeforeYear, daysBeforeYear, daysInYear, isLeap, Nat.add_sub_cancel, Nat.add_sub_cancel,
    Nat.succ_div (a := y) (b := 4), Nat.succ_div (a := y) (b := 100),
    Nat.succ_div (a := y) (b := 400)]
  simp only [Nat.dvd_iff_mod_eq_zero, Bool.and_eq_true, Bool.or_eq_true, decide_eq_true_eq]
  by_cases hfour : (y + 1) % 4 = 0
  · by_cases hcentury : (y + 1) % 100 = 0
    · by_cases hcycle : (y + 1) % 400 = 0
      · simp only [hfour, hcentury, hcycle, if_true]
        simp
        omega
      · simp [hfour, hcentury, hcycle]
        omega
    · have hcycle : (y + 1) % 400 ≠ 0 := by omega
      simp [hfour, hcentury, hcycle]
      omega
  · have hcentury : (y + 1) % 100 ≠ 0 := by omega
    have hcycle : (y + 1) % 400 ≠ 0 := by omega
    simp [hfour, hcentury, hcycle]
    omega

/-- The days before a year, by cycles of four hundred, a hundred and four years. -/
theorem daysBeforeYear_cycles {a b c d : ℕ} (hb : b ≤ 3) (hc : c ≤ 24) (hd : d ≤ 3) :
    daysBeforeYear (a * 400 + b * 100 + c * 4 + d + 1) =
      146097 * a + 36524 * b + 1461 * c + 365 * d := by
  have hfours : (a * 400 + b * 100 + c * 4 + d) / 4 = 100 * a + 25 * b + c := by omega
  have hcenturies : (a * 400 + b * 100 + c * 4 + d) / 100 = 4 * a + b := by omega
  have hcycles : (a * 400 + b * 100 + c * 4 + d) / 400 = a := by omega
  rw [daysBeforeYear, Nat.add_sub_cancel, hfours, hcenturies, hcycles]
  omega

/-- A year is leap if it is the last of four, except the last of a century that does not end a
cycle. -/
theorem isLeap_cycles {a b c d : ℕ} (hb : b ≤ 3) (hc : c ≤ 24) (hd : d ≤ 3) :
    isLeap (a * 400 + b * 100 + c * 4 + d + 1) = (d = 3 && (c ≠ 24 || b = 3)) := by
  rw [isLeap, Bool.eq_iff_iff]
  simp only [Bool.and_eq_true, Bool.or_eq_true, decide_eq_true_eq]
  have hfour : (a * 400 + b * 100 + c * 4 + d + 1) % 4 = 0 ↔ d = 3 := by omega
  have hcentury : (a * 400 + b * 100 + c * 4 + d + 1) % 100 = 0 ↔ c = 24 ∧ d = 3 := by omega
  have hcycle : (a * 400 + b * 100 + c * 4 + d + 1) % 400 = 0 ↔ b = 3 ∧ c = 24 ∧ d = 3 := by omega
  rw [hfour, ne_eq, hcentury, hcycle]
  omega

theorem yearAndRest_spec (n : ℕ) :
    1 ≤ (yearAndRest n).1 ∧ (yearAndRest n).2 < daysInYear (yearAndRest n).1 ∧
      daysBeforeYear (yearAndRest n).1 + (yearAndRest n).2 = n := by
  rw [yearAndRest]
  set a := n / 146097
  set b := n % 146097 / 36524 with hb
  set c := n % 146097 % 36524 / 1461 with hc
  set d := n % 146097 % 36524 % 1461 / 365 with hd
  set u := n % 146097 % 36524 % 1461 % 365 with hu
  have hn : n = 146097 * a + 36524 * b + 1461 * c + 365 * d + u := by omega
  have hday : u < 365 := Nat.mod_lt _ (by decide)
  have hcentury : b ≤ 3 ∨ b = 4 ∧ c = 0 ∧ d = 0 ∧ u = 0 := by omega
  have hfour : c ≤ 24 := by omega
  have hlast : d ≤ 3 ∨ d = 4 ∧ u = 0 ∧ c ≤ 23 := by omega
  clear_value a b c d u
  rcases hcentury with hcentury | ⟨rfl, rfl, rfl, rfl⟩
  · rcases hlast with hyear | ⟨rfl, rfl, hfours⟩
    · rw [if_neg (by omega)]
      dsimp only
      rw [daysBeforeYear_cycles hcentury hfour hyear]
      refine ⟨Nat.le_add_left 1 _, ?_, hn.symm⟩
      rw [daysInYear]
      split_ifs <;> omega
    · -- the last day of four years
      have hsame : a * 400 + b * 100 + c * 4 + 4 + 1 - 1 = a * 400 + b * 100 + c * 4 + 3 + 1 := by
        omega
      rw [if_pos (.inr rfl)]
      dsimp only
      rw [hsame, daysInYear, isLeap_cycles hcentury hfour (Nat.le_refl 3),
        daysBeforeYear_cycles hcentury hfour (Nat.le_refl 3)]
      refine ⟨Nat.le_add_left 1 _, ?_, by omega⟩
      rw [if_pos (by simp; omega)]
      decide
  · -- the last day of a cycle
    have hsame : a * 400 + 4 * 100 + 0 * 4 + 0 + 1 - 1 = a * 400 + 3 * 100 + 24 * 4 + 3 + 1 := by
      omega
    rw [if_pos (.inl rfl)]
    dsimp only
    rw [hsame, daysInYear, isLeap_cycles (Nat.le_refl 3) (Nat.le_refl 24) (Nat.le_refl 3),
      daysBeforeYear_cycles (Nat.le_refl 3) (Nat.le_refl 24) (Nat.le_refl 3)]
    exact ⟨Nat.le_add_left 1 _, by decide, by omega⟩

/-- The number of months from `month` on is enough for the rest of the year. -/
theorem monthAndDay_spec (year months : ℕ) {month rest : ℕ} (hmonth : 1 ≤ month)
    (hmonths : month + months = 12)
    (hrest : daysBeforeMonth year month + rest < daysInYear year) :
    (1 ≤ (monthAndDay year months month rest).1 ∧ (monthAndDay year months month rest).1 ≤ 12) ∧
      (1 ≤ (monthAndDay year months month rest).2 ∧ (monthAndDay year months month rest).2 ≤
        daysInMonth year (monthAndDay year months month rest).1) ∧
      daysBeforeMonth year (monthAndDay year months month rest).1 +
          (monthAndDay year months month rest).2 =
        daysBeforeMonth year month + rest + 1 := by
  induction months generalizing month rest with
  | zero =>
      obtain rfl : month = 12 := hmonths
      have hyear := daysBeforeMonth_end year
      rw [daysBeforeMonth_succ year (by decide)] at hyear
      rw [monthAndDay]
      dsimp only
      exact ⟨⟨by decide, Nat.le_refl 12⟩, ⟨Nat.le_add_left 1 _, by omega⟩, rfl⟩
  | succ months ih =>
      rw [monthAndDay]
      split_ifs with hin
      · exact ⟨⟨hmonth, by omega⟩, ⟨Nat.le_add_left 1 _, hin⟩, rfl⟩
      · have hnext := daysBeforeMonth_succ year hmonth
        have hbound : daysBeforeMonth year (month + 1) + (rest - daysInMonth year month) <
            daysInYear year := by omega
        obtain ⟨hrange, hday, hsum⟩ := ih (Nat.le_add_left 1 month) (by omega) hbound
        exact ⟨hrange, hday, by omega⟩

/-- `date.fromordinal` -/
def fromOrdinal (n : ℕ) : Date :=
  have hyear := yearAndRest_spec (n - 1)
  have hmonth := monthAndDay_spec (yearAndRest (n - 1)).1 11 (Nat.le_refl 1) rfl
    ((Nat.zero_add _).trans_lt hyear.2.1)
  { year := (yearAndRest (n - 1)).1
    month := (monthAndDay (yearAndRest (n - 1)).1 11 1 (yearAndRest (n - 1)).2).1
    day := (monthAndDay (yearAndRest (n - 1)).1 11 1 (yearAndRest (n - 1)).2).2
    year_pos := hyear.1
    month_range := hmonth.1
    day_range := hmonth.2.1 }

theorem ordinal_fromOrdinal {n : ℕ} (h : 1 ≤ n) : (fromOrdinal n).ordinal = n := by
  obtain ⟨hpositive, hrest, hsum⟩ := yearAndRest_spec (n - 1)
  have hmonth := (monthAndDay_spec (yearAndRest (n - 1)).1 11 (Nat.le_refl 1) rfl
    ((Nat.zero_add _).trans_lt hrest)).2.2
  have hzero : daysBeforeMonth (yearAndRest (n - 1)).1 1 = 0 := rfl
  rw [Date.ordinal, fromOrdinal]
  dsimp only
  omega

theorem Date.ordinal_pos (date : Date) : 1 ≤ date.ordinal := by
  have hday := date.day_range.1
  rw [ordinal]
  omega

end Dates

section Months

/-- The months from the beginning of the year one. -/
def Date.monthIndex (date : Date) : ℕ := 12 * (date.year - 1) + (date.month - 1)

def monthLength (index : ℕ) : ℕ := daysInMonth (index / 12 + 1) (index % 12 + 1)

def daysBefore (index : ℕ) : ℕ :=
  daysBeforeYear (index / 12 + 1) + daysBeforeMonth (index / 12 + 1) (index % 12 + 1)

/-- The first day of a month. -/
def firstOf (index : ℕ) : Date where
  year := index / 12 + 1
  month := index % 12 + 1
  day := 1
  year_pos := Nat.le_add_left 1 _
  month_range := ⟨Nat.le_add_left 1 _, Nat.mod_lt index (by decide)⟩
  day_range := ⟨Nat.le_refl 1, Nat.le_trans (by decide : 1 ≤ 28) (daysInMonth_range _ _).1⟩

/-- `date.replace(day=1)` -/
def Date.firstOfMonth (date : Date) : Date where
  year := date.year
  month := date.month
  day := 1
  year_pos := date.year_pos
  month_range := date.month_range
  day_range := ⟨Nat.le_refl 1, date.day_range.1.trans date.day_range.2⟩

variable {date : Date} {index index' : ℕ}

theorem daysBefore_succ (index : ℕ) : daysBefore (index + 1) = daysBefore index + monthLength index := by
  rw [daysBefore, daysBefore, monthLength]
  by_cases hlast : index % 12 = 11
  · have hyear : (index + 1) / 12 = index / 12 + 1 := by omega
    have hmonth : (index + 1) % 12 = 0 := by omega
    have hend := daysBeforeMonth_end (index / 12 + 1)
    rw [daysBeforeMonth_succ _ (by decide)] at hend
    rw [hyear, hmonth, hlast, daysBeforeYear_succ (Nat.le_add_left 1 _)]
    change _ + daysBeforeMonth _ 1 = _ + daysBeforeMonth _ 12 + daysInMonth _ 12
    rw [← hend, Nat.add_assoc, Nat.add_assoc]
    rfl
  · have hyear : (index + 1) / 12 = index / 12 := by omega
    have hmonth : (index + 1) % 12 = index % 12 + 1 := by omega
    rw [hyear, hmonth, daysBeforeMonth_succ _ (Nat.le_add_left 1 _), Nat.add_assoc]

theorem daysBefore_mono (h : index ≤ index') : daysBefore index ≤ daysBefore index' := by
  induction h with
  | refl => exact Nat.le_refl _
  | step _ ih => exact (ih.trans (Nat.le_add_right _ _)).trans_eq (daysBefore_succ _).symm

/-- No month is longer than thirty-one days. -/
theorem daysBefore_add_le (index months : ℕ) :
    daysBefore (index + months) ≤ daysBefore index + 31 * months := by
  induction months with
  | zero => exact Nat.le_refl _
  | succ months ih =>
      have hlength := (daysInMonth_range ((index + months) / 12 + 1) ((index + months) % 12 + 1)).2
      rw [← Nat.add_assoc, daysBefore_succ, monthLength]
      omega

theorem Date.year_eq (date : Date) : date.monthIndex / 12 + 1 = date.year := by
  have hyear := date.year_pos
  have hmonth := date.month_range
  rw [monthIndex]
  omega

theorem Date.month_eq (date : Date) : date.monthIndex % 12 + 1 = date.month := by
  have hmonth := date.month_range
  rw [monthIndex]
  omega

theorem Date.ordinal_eq (date : Date) : date.ordinal = daysBefore date.monthIndex + date.day := by
  rw [ordinal, daysBefore, year_eq, month_eq]

theorem ordinal_firstOf (index : ℕ) : (firstOf index).ordinal = daysBefore index + 1 := rfl

theorem Date.firstOfMonth_eq (date : Date) : date.firstOfMonth = firstOf date.monthIndex := by
  ext
  · exact date.year_eq.symm
  · exact date.month_eq.symm
  · rfl

theorem monthIndex_firstOf (index : ℕ) : (firstOf index).monthIndex = index := by
  rw [Date.monthIndex, firstOf]
  dsimp only
  omega

/-- The month of a date by its ordinal. -/
theorem Date.monthIndex_eq_iff (date : Date) :
    date.monthIndex = index ↔ daysBefore index < date.ordinal ∧ date.ordinal ≤ daysBefore (index + 1) := by
  have hday := date.day_range
  have hlength : monthLength date.monthIndex = daysInMonth date.year date.month := by
    rw [monthLength, year_eq, month_eq]
  have hsucc := daysBefore_succ date.monthIndex
  have hordinal := date.ordinal_eq
  constructor
  · rintro rfl
    omega
  · rintro ⟨hlow, hhigh⟩
    rcases Nat.lt_trichotomy date.monthIndex index with hless | heq | hmore
    · have hmono : daysBefore (date.monthIndex + 1) ≤ daysBefore index := daysBefore_mono hless
      omega
    · exact heq
    · have hmono : daysBefore (index + 1) ≤ daysBefore date.monthIndex := daysBefore_mono hmore
      omega

end Months

section Times

def microsPerDay : ℕ := 86400000000

structure Time where
  hour : ℕ := 0
  minute : ℕ := 0
  second : ℕ := 0
  microsecond : ℕ := 0
  hour_lt : hour < 24 := by decide
  minute_lt : minute < 60 := by decide
  second_lt : second < 60 := by decide
  microsecond_lt : microsecond < 1000000 := by decide
deriving DecidableEq

def Time.micros (time : Time) : ℕ :=
  ((time.hour * 60 + time.minute) * 60 + time.second) * 1000000 + time.microsecond

/-- A time of the day by its microseconds. -/
def Time.ofMicros (n : ℕ) : Time where
  hour := n / 3600000000 % 24
  minute := n / 60000000 % 60
  second := n / 1000000 % 60
  microsecond := n % 1000000
  hour_lt := Nat.mod_lt _ (by decide)
  minute_lt := Nat.mod_lt _ (by decide)
  second_lt := Nat.mod_lt _ (by decide)
  microsecond_lt := Nat.mod_lt _ (by decide)

structure DateTime where
  date : Date
  time : Time
deriving DecidableEq

/-- The microseconds from the midnight of the ordinal zero. -/
def DateTime.micros (moment : DateTime) : ℕ := moment.date.ordinal * microsPerDay + moment.time.micros

instance : LT DateTime := ⟨fun earlier later => earlier.micros < later.micros⟩

instance : LE DateTime := ⟨fun earlier later => earlier.micros ≤ later.micros⟩

instance (earlier later : DateTime) : Decidable (earlier < later) :=
  inferInstanceAs (Decidable (earlier.micros < later.micros))

instance (earlier later : DateTime) : Decidable (earlier ≤ later) :=
  inferInstanceAs (Decidable (earlier.micros ≤ later.micros))

def ofMicros (n : ℕ) : DateTime := ⟨fromOrdinal (n / microsPerDay), Time.ofMicros (n % microsPerDay)⟩

theorem Time.micros_lt (time : Time) : time.micros < microsPerDay := by
  have hhour := time.hour_lt
  have hminute := time.minute_lt
  have hsecond := time.second_lt
  have hmicrosecond := time.microsecond_lt
  rw [micros, microsPerDay]
  omega

theorem Time.micros_ofMicros {n : ℕ} (h : n < microsPerDay) : (Time.ofMicros n).micros = n := by
  rw [microsPerDay] at h
  rw [micros, ofMicros]
  dsimp only
  omega

theorem micros_ofMicros {n : ℕ} (h : microsPerDay ≤ n) : (ofMicros n).micros = n := by
  rw [DateTime.micros, ofMicros]
  dsimp only
  rw [ordinal_fromOrdinal, Time.micros_ofMicros (Nat.mod_lt _ (by decide)), Nat.div_add_mod']
  exact (Nat.one_le_div_iff (by decide)).mpr h

end Times

end Calendar
