import Mathlib.Data.Int.Basic
import Mathlib.Tactic.IntervalCases
import Mathlib.Tactic.SplitIfs

/-!
# Seconds and the Gregorian calendar

The fields of a time of the proleptic Gregorian calendar without leap seconds, and the seconds since the start of 1970.
Years are counted from March on, so that the day that leap years have more is the last one of a year: the days before
a year and before a month in it are then quotients (`yearStart`, `monthStart`). `toSeconds` and `ofSeconds` are inverse
to each other.
-/

namespace Chloride

/-- The fields of a time. -/
structure CivilTime where
  year : ℤ
  month : ℤ
  day : ℤ
  hour : ℤ
  minute : ℤ
  second : ℤ
  deriving DecidableEq

namespace Gregorian

def Leap (year : ℤ) : Prop := year % 4 = 0 ∧ (year % 100 ≠ 0 ∨ year % 400 = 0)

instance (year : ℤ) : Decidable (Leap year) := inferInstanceAs (Decidable (_ ∧ _))

def daysInMonth (year month : ℤ) : ℤ :=
  if month = 2 then if Leap year then 29 else 28
  else if month = 4 ∨ month = 6 ∨ month = 9 ∨ month = 11 then 30
  else 31

/-- The days from the first of March of the year 0 to that of a year. -/
def yearStart (year : ℤ) : ℤ := 365 * year + year / 4 - year / 100 + year / 400

/-- The days from the first of March to the first of a month, where March is 0. -/
def monthStart (month : ℤ) : ℤ := (153 * month + 2) / 5

/-- The days from the first of March of the year 0 to the start of 1970. -/
def epoch : ℤ := 719468

/-- The days from the start of 1970 to a day. -/
def toDays (year month day : ℤ) : ℤ :=
  if month ≤ 2 then yearStart (year - 1) + monthStart (month + 9) + (day - 1) - epoch
  else yearStart year + monthStart (month - 3) + (day - 1) - epoch

/-- The year of a day that is counted from the first of March of the year 0. -/
def yearOf (days : ℤ) : ℤ :=
  let year := 400 * days / 146097
  if days < yearStart year then year - 1
  else if yearStart (year + 1) ≤ days then year + 1
  else year

/-- The month of a day that is counted from the first of March. -/
def monthOf (days : ℤ) : ℤ := (5 * days + 2) / 153

/-- Year, month and day. -/
def ofDays (days : ℤ) : ℤ × ℤ × ℤ :=
  let year := yearOf (days + epoch)
  let days := days + epoch - yearStart year
  let month := monthOf days
  let day := days - monthStart month + 1
  if month < 10 then (year, month + 3, day) else (year + 1, month - 9, day)

end Gregorian

namespace CivilTime

open Gregorian

/-- The fields name a time. -/
structure Valid (t : CivilTime) : Prop where
  month : 1 ≤ t.month ∧ t.month ≤ 12
  day : 1 ≤ t.day ∧ t.day ≤ daysInMonth t.year t.month
  hour : 0 ≤ t.hour ∧ t.hour < 24
  minute : 0 ≤ t.minute ∧ t.minute < 60
  second : 0 ≤ t.second ∧ t.second < 60

/-- The seconds since the start of 1970. -/
def toSeconds (t : CivilTime) : ℤ :=
  86400 * toDays t.year t.month t.day + 3600 * t.hour + 60 * t.minute + t.second

def ofSeconds (seconds : ℤ) : CivilTime :=
  let date := ofDays (seconds / 86400)
  let rest := seconds % 86400
  ⟨date.1, date.2.1, date.2.2, rest / 3600, rest % 3600 / 60, rest % 60⟩

end CivilTime

namespace Gregorian

/-! ## Years -/

theorem yearStart_mono {a b : ℤ} (h : a ≤ b) : yearStart a ≤ yearStart b := by
  unfold yearStart
  omega

/-- A year has 365 days, and the one with a leap day at its end one more. -/
theorem yearStart_succ (year : ℤ) :
    yearStart (year + 1) = yearStart year + if Leap (year + 1) then 366 else 365 := by
  unfold yearStart Leap
  split_ifs <;> omega

theorem yearOf_spec (days : ℤ) : yearStart (yearOf days) ≤ days ∧ days < yearStart (yearOf days + 1) := by
  unfold yearOf yearStart
  dsimp only
  split_ifs <;> omega

/-- There is one year that a day is in. -/
theorem yearOf_eq {days year : ℤ} (hstart : yearStart year ≤ days) (hend : days < yearStart (year + 1)) :
    yearOf days = year := by
  obtain ⟨hstart', hend'⟩ := yearOf_spec days
  have hle : yearOf days < year + 1 := by
    by_contra hnot
    have hmono := yearStart_mono (Int.not_lt.mp hnot)
    omega
  have hge : year < yearOf days + 1 := by
    by_contra hnot
    have hmono := yearStart_mono (Int.not_lt.mp hnot)
    omega
  omega

/-! ## Months -/

/-- The month of a day of a year, and the day in it. -/
theorem monthOf_spec {days : ℤ} (hstart : 0 ≤ days) (hend : days < 366) :
    (0 ≤ monthOf days ∧ monthOf days ≤ 11) ∧ monthStart (monthOf days) ≤ days ∧
      days < monthStart (monthOf days + 1) := by
  unfold monthOf monthStart
  omega

/-- There is one month that a day is in. -/
theorem monthOf_eq {days month : ℤ} (hstart : monthStart month ≤ days) (hend : days < monthStart (month + 1)) :
    monthOf days = month := by
  unfold monthStart at hstart hend
  unfold monthOf
  omega

/-- The month with a number from March on, and the year it is in. -/
def calendarMonth (month : ℤ) : ℤ := if month < 10 then month + 3 else month - 9

def calendarYear (year month : ℤ) : ℤ := if month < 10 then year else year + 1

/-- The number of a month from March on, and the year that March is in. -/
def marchMonth (month : ℤ) : ℤ := if month ≤ 2 then month + 9 else month - 3

def marchYear (year month : ℤ) : ℤ := if month ≤ 2 then year - 1 else year

theorem calendarMonth_marchMonth {month : ℤ} (h : 1 ≤ month ∧ month ≤ 12) :
    calendarMonth (marchMonth month) = month := by
  unfold calendarMonth marchMonth
  split_ifs <;> omega

theorem calendarYear_marchYear (year : ℤ) {month : ℤ} (h : 1 ≤ month ∧ month ≤ 12) :
    calendarYear (marchYear year month) (marchMonth month) = year := by
  unfold calendarYear marchYear marchMonth
  split_ifs <;> omega

theorem marchMonth_calendarMonth {month : ℤ} (h : 0 ≤ month ∧ month ≤ 11) :
    marchMonth (calendarMonth month) = month := by
  unfold calendarMonth marchMonth
  split_ifs <;> omega

theorem marchYear_calendarYear (year : ℤ) {month : ℤ} (h : 0 ≤ month ∧ month ≤ 11) :
    marchYear (calendarYear year month) (calendarMonth month) = year := by
  unfold calendarYear marchYear calendarMonth
  split_ifs <;> omega

/-- The months from March to January are the days between their starts, and February is the rest of the year. -/
theorem daysInMonth_calendar (year : ℤ) {month : ℤ} (h : 0 ≤ month ∧ month ≤ 11) :
    daysInMonth (calendarYear year month) (calendarMonth month) =
      if month = 11 then yearStart (year + 1) - yearStart year - monthStart 11
      else monthStart (month + 1) - monthStart month := by
  obtain ⟨hle, hge⟩ := h
  by_cases hfebruary : month = 11
  · subst hfebruary
    rw [if_pos rfl, yearStart_succ]
    show (if Leap (year + 1) then 29 else 28) = yearStart year + (if Leap (year + 1) then 366 else 365) -
      yearStart year - 337
    split_ifs <;> omega
  · rw [if_neg hfebruary]
    interval_cases month <;> first | rfl | omega

/-! ## Days -/

/-- A day in its year, by the number of its month from March on and the days before it in the month. -/
structure DayOfYear (year month day : ℤ) : Prop where
  months : 0 ≤ month ∧ month ≤ 11
  days : 0 ≤ day ∧ day < daysInMonth (calendarYear year month) (calendarMonth month)

variable {days year month day : ℤ}

/-- Its place between the starts of the months and of the years. -/
theorem DayOfYear.place (h : DayOfYear year month day) :
    (0 ≤ monthStart month ∧ monthStart month + day < monthStart (month + 1)) ∧
      yearStart year + monthStart month + day < yearStart (year + 1) := by
  obtain ⟨hmonth, -, hday⟩ := h
  have hsucc := yearStart_succ year
  rw [daysInMonth_calendar year hmonth] at hday
  unfold monthStart at *
  split_ifs at hday hsucc <;> omega

/-- The days between the starts are those of the calendar. -/
theorem dayOfYear_of_place (hmonth : 0 ≤ month ∧ month ≤ 11) (hday : 0 ≤ day)
    (hin : monthStart month + day < monthStart (month + 1))
    (hyear : yearStart year + monthStart month + day < yearStart (year + 1)) : DayOfYear year month day := by
  refine ⟨hmonth, hday, ?_⟩
  rw [daysInMonth_calendar year hmonth]
  split_ifs with hfebruary
  · rw [← hfebruary]
    omega
  · omega

theorem toDays_eq (year month day : ℤ) : toDays year month day =
    yearStart (marchYear year month) + monthStart (marchMonth month) + (day - 1) - epoch := by
  unfold toDays marchYear marchMonth
  split_ifs <;> rfl

theorem ofDays_eq (h : DayOfYear year month day) (hdays : days + epoch = yearStart year + monthStart month + day) :
    ofDays days = (calendarYear year month, calendarMonth month, day + 1) := by
  obtain ⟨⟨hzero, hin⟩, hend⟩ := h.place
  have hday := h.days.1
  have hyear : yearOf (days + epoch) = year := yearOf_eq (by omega) (by omega)
  have hmonth : monthOf (days + epoch - yearStart year) = month := monthOf_eq (by omega) (by omega)
  have hrest : days + epoch - yearStart year - monthStart month + 1 = day + 1 := by omega
  simp only [ofDays, hyear, hmonth, hrest, calendarYear, calendarMonth]
  split_ifs <;> rfl

/-- Every day has its place. -/
theorem exists_dayOfYear (days : ℤ) : ∃ year month day, DayOfYear year month day ∧
    days + epoch = yearStart year + monthStart month + day := by
  obtain ⟨hstart, hend⟩ := yearOf_spec (days + epoch)
  have hsucc := yearStart_succ (yearOf (days + epoch))
  set year := yearOf (days + epoch)
  have hbound : days + epoch - yearStart year < 366 := by
    split_ifs at hsucc <;> omega
  obtain ⟨hmonth, hstart', hend'⟩ := monthOf_spec (by omega) hbound
  set month := monthOf (days + epoch - yearStart year)
  exact ⟨year, month, days + epoch - yearStart year - monthStart month,
    dayOfYear_of_place hmonth (by omega) (by omega) (by omega), by omega⟩

/-- A day of the calendar is found again. -/
theorem ofDays_toDays (hmonth : 1 ≤ month ∧ month ≤ 12) (hday : 1 ≤ day ∧ day ≤ daysInMonth year month) :
    ofDays (toDays year month day) = (year, month, day) := by
  have hplace : DayOfYear (marchYear year month) (marchMonth month) (day - 1) := by
    refine ⟨?_, by omega, ?_⟩
    · unfold marchMonth
      split_ifs <;> omega
    · rw [calendarYear_marchYear year hmonth, calendarMonth_marchMonth hmonth]
      omega
  rw [ofDays_eq hplace (by rw [toDays_eq]; omega), calendarYear_marchYear year hmonth,
    calendarMonth_marchMonth hmonth, sub_add_cancel]

/-- The fields of a day are a day of the calendar, and that day. -/
theorem valid_ofDays (days : ℤ) :
    (1 ≤ (ofDays days).2.1 ∧ (ofDays days).2.1 ≤ 12) ∧
      (1 ≤ (ofDays days).2.2 ∧ (ofDays days).2.2 ≤ daysInMonth (ofDays days).1 (ofDays days).2.1) ∧
        toDays (ofDays days).1 (ofDays days).2.1 (ofDays days).2.2 = days := by
  obtain ⟨year, month, day, h, hdays⟩ := exists_dayOfYear days
  have hday := h.days
  rw [ofDays_eq h hdays]
  refine ⟨?_, ⟨by dsimp only; omega, by dsimp only; omega⟩, ?_⟩
  · have hmonth := h.months
    dsimp only
    unfold calendarMonth
    split_ifs <;> omega
  · dsimp only
    rw [toDays_eq, marchYear_calendarYear year h.months, marchMonth_calendarMonth h.months]
    omega

end Gregorian

namespace CivilTime

open Gregorian

theorem toSeconds_ofSeconds (seconds : ℤ) : (ofSeconds seconds).toSeconds = seconds := by
  obtain ⟨-, -, hdays⟩ := valid_ofDays (seconds / 86400)
  simp only [toSeconds, ofSeconds, hdays]
  omega

theorem valid_ofSeconds (seconds : ℤ) : (ofSeconds seconds).Valid := by
  obtain ⟨hmonth, hday, -⟩ := valid_ofDays (seconds / 86400)
  refine ⟨hmonth, hday, ?_, ?_, ?_⟩ <;> dsimp only [ofSeconds] <;> omega

theorem ofSeconds_toSeconds {t : CivilTime} (h : t.Valid) : ofSeconds t.toSeconds = t := by
  obtain ⟨hmonth, hday, hhour, hminute, hsecond⟩ := h
  have hdays : t.toSeconds / 86400 = toDays t.year t.month t.day := by
    unfold toSeconds
    omega
  have hrest : t.toSeconds % 86400 = 3600 * t.hour + 60 * t.minute + t.second := by
    unfold toSeconds
    omega
  rw [ofSeconds]
  rw [hdays, hrest, ofDays_toDays hmonth hday]
  obtain ⟨year, month, day, hour, minute, second⟩ := t
  dsimp only at hhour hminute hsecond ⊢
  congr 1 <;> omega

/-- The last second of a leap day. -/
example : ofSeconds 951868799 = ⟨2000, 2, 29, 23, 59, 59⟩ := by decide

end CivilTime

end Chloride
