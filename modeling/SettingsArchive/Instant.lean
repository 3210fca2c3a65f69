import SettingsArchive.Calendar

/-!
# Instants

A revision is dated with an instant: a second of universal time, counted from
the beginning of 1970, and nanoseconds within it.  A leap second is kept as the
second before it with a thousand million nanoseconds or more, so it lies behind
every other instant of that second and before the next one.  It may follow any
second: behind one that ends no minute it ends a minute of another clock.

Three texts show an instant.  Documents and reports carry the form
`2024-01-01T00:00:00Z`, messages the form `2024-01-01 00:00:00 UTC`, and a
history on the terminal leaves out the fraction.  A fraction has three, six or
nine digits, as few as it needs.  A year that is not one of 0 to 9999 carries
a sign.
-/

namespace SettingsArchive

/-- A second of universal time and nanoseconds within it or within the leap
second behind it. -/
structure Instant where
  second : Int
  nano : Nat
  nano_lt : nano < 2000000000
deriving DecidableEq

namespace Instant

/-- The instant at a second and a nanosecond.  A leap second is found there only
behind the last second of a minute. -/
def ofUnix? (second : Int) (nano : Nat) : Option Instant :=
  if h : nano < 2000000000 ∧ (1000000000 ≤ nano → second % 60 = 59) then
    some { second, nano, nano_lt := h.1 }
  else none

/-- The beginning of a second. -/
def ofSecond (second : Int) : Instant :=
  { second, nano := 0, nano_lt := by decide }

/-- Instants are ordered by their seconds, and within a second by their
nanoseconds. -/
instance : LE Instant where
  le t u := t.second < u.second ∨ (t.second = u.second ∧ t.nano ≤ u.nano)

instance : LT Instant where
  lt t u := t.second < u.second ∨ (t.second = u.second ∧ t.nano < u.nano)

instance (t u : Instant) : Decidable (t ≤ u) :=
  inferInstanceAs (Decidable (_ ∨ _))

instance (t u : Instant) : Decidable (t < u) :=
  inferInstanceAs (Decidable (_ ∨ _))

/-- One instant is not before another exactly when the other is not after
it. -/
theorem not_lt {t u : Instant} : ¬ t < u ↔ u ≤ t := by
  show ¬ (t.second < u.second ∨ (t.second = u.second ∧ t.nano < u.nano)) ↔
    (u.second < t.second ∨ (u.second = t.second ∧ u.nano ≤ t.nano))
  omega

/-- The first and the last second that the calendar of this library names,
those of the years -262143 and 262142. -/
def firstSecond : Int := -8334601228800

@[inherit_doc firstSecond]
def lastSecond : Int := 8210266876799

/-! ## Written instants -/

/-- The digits of a number, filled up with zeros in front. -/
def padded (width n : Nat) : List Char :=
  let digits := Nat.toDigits 10 n
  List.replicate (width - digits.length) '0' ++ digits

/-- The text of a year. -/
def yearChars (year : Int) : List Char :=
  if 0 ≤ year ∧ year ≤ 9999 then padded 4 year.toNat
  else (if year < 0 then '-' else '+') :: padded 4 year.natAbs

/-- The text of a date. -/
def dateChars (d : Date) : List Char :=
  yearChars d.year ++ '-' :: padded 2 d.month ++ '-' :: padded 2 d.day

/-- The text of a fraction of a second. -/
def fractionChars (nano : Nat) : List Char :=
  if nano = 0 then []
  else if nano % 1000000 = 0 then '.' :: padded 3 (nano / 1000000)
  else if nano % 1000 = 0 then '.' :: padded 6 (nano / 1000)
  else '.' :: padded 9 nano

/-- The date of an instant. -/
def date (t : Instant) : Date :=
  Date.ofDayNumber (t.second / 86400 + Date.epochDay)

/-- The nanoseconds within the second that is shown. -/
def shownNano (t : Instant) : Nat :=
  t.nano % 1000000000

/-- The time of day of an instant.  A leap second is shown as the second behind
its own, which is the sixtieth of the minute if its own ends the minute. -/
def clockChars (t : Instant) : List Char :=
  let s := (t.second % 86400).toNat
  padded 2 (s / 3600) ++ ':' :: padded 2 (s / 60 % 60)
    ++ ':' :: padded 2 (s % 60 + t.nano / 1000000000)

/-- The form of documents and reports. -/
def rfc3339Chars (t : Instant) : List Char :=
  dateChars t.date ++ 'T' :: t.clockChars ++ fractionChars t.shownNano ++ ['Z']

/-- The form of documents and reports. -/
def rfc3339 (t : Instant) : String :=
  String.ofList t.rfc3339Chars

/-- The form of messages. -/
def display (t : Instant) : String :=
  String.ofList (dateChars t.date ++ ' ' :: t.clockChars
    ++ fractionChars t.shownNano) ++ " UTC"

/-- The form of a history on the terminal. -/
def shortDisplay (t : Instant) : String :=
  String.ofList (dateChars t.date ++ ' ' :: t.clockChars)

end Instant

end SettingsArchive
