import Mathlib.Data.Int.Notation
import Mathlib.Tactic.Common

/-! # The calendar

Dates of the Gregorian calendar, for all years, and the days and seconds since 1970. -/

namespace Sunela.Calendar

structure Date where
  year : ℤ
  month : ℕ
  day : ℕ
  deriving DecidableEq

def isLeap (y : ℤ) : Bool := decide (y % 4 = 0 ∧ (y % 100 ≠ 0 ∨ y % 400 = 0))

/-- The days of a year before a month, or all of them for month 13. -/
def daysBefore (leap : Bool) (m : ℕ) : ℕ :=
  [0, 31, 59, 90, 120, 151, 181, 212, 243, 273, 304, 334, 365].getD (m - 1) 0 +
    (leap && decide (2 < m)).toNat

def monthLength (leap : Bool) (m : ℕ) : ℕ := daysBefore leap (m + 1) - daysBefore leap m

structure Date.Valid (d : Date) : Prop where
  month : 1 ≤ d.month ∧ d.month ≤ 12
  day : 1 ≤ d.day ∧ d.day ≤ monthLength (isLeap d.year) d.month

/-- The days before a year, since the beginning of the year 1. -/
def daysBeforeYear (y : ℤ) : ℤ := 365 * (y - 1) + (y - 1) / 4 - (y - 1) / 100 + (y - 1) / 400

/-- The days from the first one of 1970 to the date. -/
def Date.number (d : Date) : ℤ :=
  daysBeforeYear d.year - daysBeforeYear 1970 + daysBefore (isLeap d.year) d.month + d.day - 1

/-! ## The date of a day -/

/-- The year of a day that is counted from the year 1, and the day in that year. -/
def yearOfDay (n : ℤ) : ℤ × ℤ :=
  let era := n / 146097
  let inEra := n % 146097
  let century := min (inEra / 36524) 3
  let inCentury := inEra - 36524 * century
  let cycle := inCentury / 1461
  let inCycle := inCentury % 1461
  let y := min (inCycle / 365) 3
  (400 * era + 100 * century + 4 * cycle + y + 1, inCycle - 365 * y)

/-- The number of the months that have begun. -/
def monthOfDay (leap : Bool) (day : ℕ) : ℕ :=
  ((List.range 12).filter fun m => daysBefore leap (m + 1) ≤ day).length

def Date.ofNumber (n : ℤ) : Date :=
  let (year, day) := yearOfDay (n + daysBeforeYear 1970)
  let month := monthOfDay (isLeap year) day.toNat
  ⟨year, month, day.toNat - daysBefore (isLeap year) month + 1⟩

section Years

variable {e c q y : ℤ}

/-- Years by eras of 400, centuries, and cycles of four. -/
theorem daysBeforeYear_parts (hc : 0 ≤ c ∧ c ≤ 3) (hq : 0 ≤ q ∧ q ≤ 24) (hy : 0 ≤ y ∧ y ≤ 3) :
    daysBeforeYear (400 * e + 100 * c + 4 * q + y + 1) =
      146097 * e + 36524 * c + 1461 * q + 365 * y := by
  have hfour : (400 * e + 100 * c + 4 * q + y) / 4 = 100 * e + 25 * c + q := by omega
  have hcentury : (400 * e + 100 * c + 4 * q + y) / 100 = 4 * e + c := by omega
  have hera : (400 * e + 100 * c + 4 * q + y) / 400 = e := by omega
  rw [daysBeforeYear, Int.add_sub_cancel, hfour, hcentury, hera]
  omega

/-- The last year of a cycle has another day, but not that of a century, unless the era ends. -/
theorem isLeap_parts (hc : 0 ≤ c ∧ c ≤ 3) (hq : 0 ≤ q ∧ q ≤ 24) (hy : 0 ≤ y ∧ y ≤ 3) :
    isLeap (400 * e + 100 * c + 4 * q + y + 1) = decide (y = 3 ∧ (q = 24 → c = 3)) := by
  rw [isLeap, decide_eq_decide]
  omega

end Years

theorem yearOfDay_number (n : ℤ) :
    daysBeforeYear (yearOfDay n).1 + (yearOfDay n).2 = n ∧ 0 ≤ (yearOfDay n).2 ∧
      (yearOfDay n).2 < 365 + (isLeap (yearOfDay n).1).toNat := by
  let c := min (n % 146097 / 36524) 3
  let q := (n % 146097 - 36524 * c) / 1461
  let y := min ((n % 146097 - 36524 * c) % 1461 / 365) 3
  have hc : 0 ≤ c ∧ c ≤ 3 := by omega
  have hq : 0 ≤ q ∧ q ≤ 24 := by omega
  have hy : 0 ≤ y ∧ y ≤ 3 := by omega
  have hdays := @daysBeforeYear_parts (n / 146097) c q y hc hq hy
  have hleap := @isLeap_parts (n / 146097) c q y hc hq hy
  have heq : yearOfDay n = (400 * (n / 146097) + 100 * c + 4 * q + y + 1,
    (n % 146097 - 36524 * c) % 1461 - 365 * y) := rfl
  rw [heq]
  refine ⟨?_, by dsimp only; omega, ?_⟩
  · rw [hdays]
    omega
  · rw [hleap]
    by_cases hlast : y = 3 ∧ (q = 24 → c = 3)
    · rw [decide_eq_true hlast, Bool.toNat_true]
      omega
    · rw [decide_eq_false hlast, Bool.toNat_false]
      omega

theorem yearOfDay_toNat (n : ℤ) :
    (yearOfDay n).2.toNat < 365 + (isLeap (yearOfDay n).1).toNat := by
  obtain ⟨-, hpos, hlt⟩ := yearOfDay_number n
  omega

theorem monthOfDay_fin : ∀ leap, ∀ day : Fin 366, day.val < 365 + leap.toNat →
    (1 ≤ monthOfDay leap day ∧ monthOfDay leap day ≤ 12) ∧
      daysBefore leap (monthOfDay leap day) ≤ day ∧
      day.val < daysBefore leap (monthOfDay leap day + 1) := by
  decide +kernel

/-- The month of a day, and the place of the day in it. -/
theorem monthOfDay_day {leap : Bool} {day : ℕ} (h : day < 365 + leap.toNat) :
    (1 ≤ monthOfDay leap day ∧ monthOfDay leap day ≤ 12) ∧
      daysBefore leap (monthOfDay leap day) ≤ day ∧
      day < daysBefore leap (monthOfDay leap day + 1) :=
  have hleap := Bool.toNat_le leap
  monthOfDay_fin leap ⟨day, by omega⟩ h

theorem Date.ofNumber_valid (n : ℤ) : (Date.ofNumber n).Valid := by
  obtain ⟨hmonth, hfirst, hlast⟩ := monthOfDay_day (yearOfDay_toNat (n + daysBeforeYear 1970))
  refine ⟨hmonth, ?_⟩
  simp only [Date.ofNumber, monthLength]
  omega

/-- The date of a day is the date of that day. -/
theorem Date.number_ofNumber (n : ℤ) : (Date.ofNumber n).number = n := by
  obtain ⟨hnumber, hpos, -⟩ := yearOfDay_number (n + daysBeforeYear 1970)
  obtain ⟨-, hfirst, -⟩ := monthOfDay_day (yearOfDay_toNat (n + daysBeforeYear 1970))
  simp only [Date.number, Date.ofNumber]
  omega

example : Date.ofNumber 11016 = ⟨2000, 2, 29⟩ := by decide +kernel

/-- A month later in the year is later. -/
theorem daysBefore_lt {leap : Bool} {m : ℕ} (hm : 1 ≤ m) (hm' : m ≤ 11) :
    daysBefore leap m < daysBefore leap (m + 1) := by
  have hall : ∀ leap, ∀ m : Fin 11, daysBefore leap (m + 1) < daysBefore leap (m + 2) := by decide
  obtain ⟨m, rfl⟩ := Nat.exists_eq_add_of_le' hm
  exact hall leap ⟨m, by omega⟩

theorem Date.Valid.day_le {d : Date} (h : d.Valid) : d.day ≤ 31 := by
  have hall : ∀ leap, ∀ m : Fin 12, monthLength leap (m + 1) ≤ 31 := by decide
  obtain ⟨m, hm⟩ := Nat.exists_eq_add_of_le' h.month.1
  have hle := hall (isLeap d.year) ⟨m, by have := h.month.2; omega⟩
  exact Nat.le_trans h.day.2 (hm ▸ hle)

/-! ## Time -/

structure Moment where
  date : Date
  hour : ℕ
  minute : ℕ
  second : ℕ
  deriving DecidableEq

structure Moment.Valid (c : Moment) : Prop where
  date : c.date.Valid
  hour : c.hour < 24
  minute : c.minute < 60
  second : c.second < 60

/-- The seconds from the beginning of 1970 on, without leap seconds. -/
def Moment.seconds (c : Moment) : ℤ :=
  86400 * c.date.number + 3600 * c.hour + 60 * c.minute + c.second

def Moment.ofSeconds (t : ℤ) : Moment :=
  let s := (t % 86400).toNat
  ⟨.ofNumber (t / 86400), s / 3600, s / 60 % 60, s % 60⟩

theorem Moment.ofSeconds_valid (t : ℤ) : (Moment.ofSeconds t).Valid where
  date := Date.ofNumber_valid _
  hour := by
    simp only [Moment.ofSeconds]
    omega
  minute := Nat.mod_lt _ (by decide)
  second := Nat.mod_lt _ (by decide)

theorem Moment.seconds_ofSeconds (t : ℤ) : (Moment.ofSeconds t).seconds = t := by
  have hnumber := Date.number_ofNumber (t / 86400)
  simp only [Moment.seconds, Moment.ofSeconds]
  rw [hnumber]
  omega

end Sunela.Calendar
