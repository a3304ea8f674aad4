import Mathlib.Algebra.Order.Group.Nat

/-! # The Gregorian calendar

Days are counted from the epoch of the Julian period, and years from March, so that a leap day ends its year.
-/

namespace Gregorian

/-- A date of the calendar, which need not exist. -/
structure Date where
  year : ℕ
  month : ℕ
  day : ℕ
deriving DecidableEq, Repr

/-- The days before the date. -/
def Date.number (date : Date) : ℕ :=
  let early := (14 - date.month) / 12
  let year := date.year + 4800 - early
  let month := date.month + 12 * early - 3
  date.day + (153 * month + 2) / 5 + 365 * year + year / 4 - year / 100 + year / 400 - 32045

/-- The date that so many days come before. -/
def date (number : ℕ) : Date :=
  let a := number + 32044
  let b := (4 * a + 3) / 146097
  let c := a - 146097 * b / 4
  let d := (4 * c + 3) / 1461
  let e := c - 1461 * d / 4
  let m := (5 * e + 2) / 153
  { year := 100 * b + d + m / 10 - 4800
    month := m + 3 - 12 * (m / 10)
    day := e - (153 * m + 2) / 5 + 1 }

/-- The first of March of the year 0. -/
abbrev yearZero : ℕ := 1721120

/-- The first and the last day of four-digit years from the Unix epoch on. -/
example : date 2440588 = ⟨1970, 1, 1⟩ ∧ date 5373484 = ⟨9999, 12, 31⟩ := by decide

variable {number b c d e m : ℕ}

/-- The day of the century. -/
theorem century_bounds (a : ℕ) (hb : b = (4 * a + 3) / 146097) (hc : c = a - 146097 * b / 4) :
    a = 146097 * b / 4 + c ∧ c ≤ 36524 := by omega

/-- The day of the year. -/
theorem year_bounds (bound : c ≤ 36524) (hd : d = (4 * c + 3) / 1461) (he : e = c - 1461 * d / 4) :
    c = 1461 * d / 4 + e ∧ d ≤ 99 ∧ e ≤ 365 := by omega

/-- The day of the month. -/
theorem month_bounds (bound : e ≤ 365) (hm : m = (5 * e + 2) / 153) :
    (153 * m + 2) / 5 ≤ e ∧ m ≤ 11 ∧ e - (153 * m + 2) / 5 ≤ 30 := by omega

theorem number_date (late : yearZero ≤ number) : (date number).number = number := by
  unfold yearZero at late
  unfold Date.number date
  dsimp only
  generalize hb : (4 * (number + 32044) + 3) / 146097 = b
  generalize hc : number + 32044 - 146097 * b / 4 = c
  obtain ⟨century, cBound⟩ := century_bounds (number + 32044) hb.symm hc.symm
  generalize hd : (4 * c + 3) / 1461 = d
  generalize he : c - 1461 * d / 4 = e
  obtain ⟨year, dBound, eBound⟩ := year_bounds cBound hd.symm he.symm
  generalize hm : (5 * e + 2) / 153 = m
  obtain ⟨month, mBound, -⟩ := month_bounds eBound hm.symm
  have january : (14 - (m + 3 - 12 * (m / 10))) / 12 = m / 10 := by omega
  rw [january]
  have fortyEight : 48 ≤ b := by omega
  have marchYear : 100 * b + d + m / 10 - 4800 + 4800 - m / 10 = 100 * b + d := by omega
  have marchMonth : m + 3 - 12 * (m / 10) + 12 * (m / 10) - 3 = m := by omega
  rw [marchYear, marchMonth]
  -- Every fourth year of a century is a leap year, and every fourth century is a day longer.
  have leapYears : 1461 * d / 4 = 365 * d + d / 4 := by omega
  have longCenturies : 146097 * b / 4 = 36524 * b + b / 4 := by omega
  have quarter : (100 * b + d) / 4 = 25 * b + d / 4 := by omega
  have centuries : (100 * b + d) / 100 = b := by omega
  have fourth : (100 * b + d) / 400 = b / 4 := by omega
  rw [quarter, centuries, fourth]
  omega

theorem date_bounds (number : ℕ) :
    1 ≤ (date number).month ∧ (date number).month ≤ 12 ∧ 1 ≤ (date number).day ∧ (date number).day ≤ 31 := by
  unfold date
  dsimp only
  generalize hb : (4 * (number + 32044) + 3) / 146097 = b
  generalize hc : number + 32044 - 146097 * b / 4 = c
  obtain ⟨-, cBound⟩ := century_bounds (number + 32044) hb.symm hc.symm
  generalize hd : (4 * c + 3) / 1461 = d
  generalize he : c - 1461 * d / 4 = e
  obtain ⟨-, -, eBound⟩ := year_bounds cBound hd.symm he.symm
  generalize hm : (5 * e + 2) / 153 = m
  obtain ⟨-, mBound, dayBound⟩ := month_bounds eBound hm.symm
  omega

/-- The days up to the end of the year 9999 have a year of four digits. -/
theorem year_lt (bound : number < 5373485) : (date number).year < 10000 := by
  unfold date
  dsimp only
  generalize hb : (4 * (number + 32044) + 3) / 146097 = b
  generalize hc : number + 32044 - 146097 * b / 4 = c
  obtain ⟨century, cBound⟩ := century_bounds (number + 32044) hb.symm hc.symm
  generalize hd : (4 * c + 3) / 1461 = d
  generalize he : c - 1461 * d / 4 = e
  obtain ⟨year, dBound, eBound⟩ := year_bounds cBound hd.symm he.symm
  generalize hm : (5 * e + 2) / 153 = m
  obtain ⟨month, mBound, -⟩ := month_bounds eBound hm.symm
  omega

end Gregorian
