/-!
# The calendar

Days are counted from the first of January of the year 0 in the proleptic
Gregorian calendar, and a date is a year, a month and a day.  `dayNumber`
and `ofDayNumber` go from one to the other.

A year begins on day `yearStart`.  The year of a day is found by a quotient
that is at most one year off, and the month by walking through the lengths
of the months.
-/

namespace SettingsArchive

/-- A day of the calendar. -/
structure Date where
  year : Int
  month : Nat
  day : Nat
deriving DecidableEq, Repr

namespace Date

/-- Whether a year has a twenty-ninth of February. -/
def isLeapYear (year : Int) : Bool :=
  year % 4 == 0 && (year % 100 != 0 || year % 400 == 0)

/-- The lengths of the months of a year. -/
def monthLengths (year : Int) : List Nat :=
  [31, if isLeapYear year then 29 else 28, 31, 30, 31, 30, 31, 31, 30, 31, 30,
    31]

/-- The day on which a year begins. -/
def yearStart (year : Int) : Int :=
  365 * year + (year + 3) / 4 - (year + 99) / 100 + (year + 399) / 400

/-- The year that a day lies in. -/
def yearOfDay (day : Int) : Int :=
  let guess := day * 400 / 146097
  if day < yearStart guess then guess - 1
  else if yearStart (guess + 1) ≤ day then guess + 1
  else guess

/-- The month and the day of the month of a day counted from zero, given the
lengths of the months from `month` on. -/
def monthAndDay (month : Nat) : List Nat → Nat → Nat × Nat
  | [], day => (month, day + 1)
  | length :: lengths, day =>
    if day < length then (month, day + 1)
    else monthAndDay (month + 1) lengths (day - length)

/-- The date of a day. -/
def ofDayNumber (day : Int) : Date :=
  let year := yearOfDay day
  let (month, dayOfMonth) :=
    monthAndDay 1 (monthLengths year) (day - yearStart year).toNat
  ⟨year, month, dayOfMonth⟩

/-- The day of a date. -/
def dayNumber (d : Date) : Int :=
  let before := (monthLengths d.year).take (d.month - 1)
  yearStart d.year + (before.foldr Nat.add 0 : Nat) + d.day - 1

/-- Whether the calendar has the month and the day. -/
def isValid (d : Date) : Bool :=
  1 ≤ d.month && d.month ≤ 12 && 1 ≤ d.day
    && d.day ≤ (monthLengths d.year).getD (d.month - 1) 0

/-- The day on which the count of seconds begins, the first of January 1970. -/
def epochDay : Int := 719528

end Date

end SettingsArchive
