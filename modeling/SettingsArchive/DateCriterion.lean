import SettingsArchive.Instant.Reader
import SettingsArchive.Numeral
import SettingsArchive.Text.Blank
import SettingsArchive.Zone.Reader

/-!
# The date of a rollback

Whoever asks for a rollback gives its date in one of three forms: as an
instant in the form of RFC 3339, as seconds since the beginning of 1970 behind
an at sign, or as the date and perhaps the time of the local clock.

The local form is lenient.  A number may have fewer digits than usual and
blanks in front, and between date and time any blanks may stand.  A year with
a sign may have any number of digits.  The seconds may be left out, and a
date without a time means its beginning.
-/

namespace SettingsArchive

/-- Why a text does not give the date of a rollback. -/
inductive DateFault where
  | timestamp (text : String) (fault : NumeralFault)
  | timestampRange (text : String)
  | form (text : String)
  | noLocalTime (text : String)
deriving DecidableEq, Repr

namespace DateFault

/-- The wording of a fault. -/
def message : DateFault → String
  | .timestamp text _ => "Invalid timestamp: " ++ text
  | .timestampRange text => "Timestamp out of range: " ++ text
  | .form text =>
    s!"Invalid date '{text}': use RFC 3339, YYYY-MM-DD [HH:MM[:SS]] or @SECONDS"
  | .noLocalTime text => s!"'{text}' does not exist in the local time zone"

/-- The fault behind a fault. -/
def cause? : DateFault → Option NumeralFault
  | .timestamp _ fault => some fault
  | _ => none

end DateFault

/-- What a local clock and a calendar show: a date, the second of the day, and
the nanoseconds. -/
structure LocalTime where
  date : Date
  second : Nat
  nano : Nat
deriving DecidableEq, Repr

namespace LocalTime

/-- The second since the beginning of 1970 by the local clock. -/
def clockSecond (t : LocalTime) : Int :=
  (t.date.dayNumber - Date.epochDay) * 86400 + t.second

/-- Whether the calendar has the date. -/
def isInCalendar (t : LocalTime) : Bool :=
  t.date.isValid && Instant.firstSecond ≤ t.clockSecond
    && t.clockSecond ≤ Instant.lastSecond

/-- The instant at which the local clock shows this, the earlier one of two.  Where
the offset is no whole number of minutes, a leap second of the local clock ends no
minute of universal time. -/
def instant? (zone : Zone) (t : LocalTime) : Option Instant := do
  let second ← zone.universalSecond? Instant.firstSecond Instant.lastSecond
    t.date.year t.clockSecond
  if h : t.nano < 2000000000 then
    return { second, nano := t.nano, nano_lt := h }
  else none

/-! ## Reading -/

/-- Reads a number of one digit up to `width` digits. -/
def readNumber? (width : Nat) (cs : List Char) : Option (Nat × List Char) :=
  let digits := (cs.take width).takeWhile Char.isDigit
  if digits.isEmpty then none
  else some (Nat.ofDigitChars 10 digits 0, cs.drop digits.length)

/-- Reads a number behind blanks. -/
def readField? (width : Nat) (cs : List Char) : Option (Nat × List Char) :=
  readNumber? width (cs.dropWhile Text.isBlank)

/-- Reads a year behind blanks. -/
def readYear? (cs : List Char) : Option (Int × List Char) :=
  match cs.dropWhile Text.isBlank with
  | '-' :: cs => do
    let (n, cs) ← readNumber? cs.length cs
    return (-(n : Int), cs)
  | '+' :: cs => do
    let (n, cs) ← readNumber? cs.length cs
    return ((n : Int), cs)
  | cs => do
    let (n, cs) ← readNumber? 4 cs
    return ((n : Int), cs)

/-- Reads a date. -/
def readDate? (cs : List Char) : Option (Date × List Char) := do
  let (year, cs) ← readYear? cs
  let cs ← Zone.readMark? '-' cs
  let (month, cs) ← readField? 2 cs
  let cs ← Zone.readMark? '-' cs
  let (day, cs) ← readField? 2 cs
  return (⟨year, month, day⟩, cs)

/-- Reads a time of day up to the end of the text. -/
def readClock? (needsSeconds : Bool) (cs : List Char) :
    Option (Nat × Nat) := do
  let (hour, cs) ← readField? 2 cs
  let cs ← Zone.readMark? ':' cs
  let (minute, cs) ← readField? 2 cs
  match cs with
  | [] => if needsSeconds then none else Instant.clock? hour minute 0 0
  | cs =>
    let cs ← Zone.readMark? ':' cs
    let (second, cs) ← readField? 2 cs
    if cs.isEmpty then Instant.clock? hour minute second 0 else none

/-- Reads what may stand behind a date. -/
def readRest? : List Char → Option (Nat × Nat)
  | [] => some (0, 0)
  | 'T' :: cs => readClock? true cs
  | cs => readClock? false cs

/-- Reads a local date and time. -/
def read? (cs : List Char) : Option LocalTime := do
  let (date, cs) ← readDate? cs
  let (second, nano) ← readRest? cs
  let t : LocalTime := ⟨date, second, nano⟩
  if t.isInCalendar then some t else none

end LocalTime

namespace Instant

/-- The instant that a text gives as the date of a rollback. -/
def ofCriterion (zone : Zone) (text : String) : Except DateFault Instant :=
  let cs := Text.trim text.toList
  let shown := String.ofList cs
  match readRfc3339 cs, cs with
  | .ok t, _ => .ok t
  | .error _, '@' :: digits =>
    match Numeral.readInt Numeral.maxInt64 digits with
    | .error fault => .error (.timestamp shown fault)
    | .ok second =>
      if firstSecond ≤ second ∧ second ≤ lastSecond then .ok (ofSecond second)
      else .error (.timestampRange shown)
  | .error _, cs =>
    match LocalTime.read? cs with
    | none => .error (.form shown)
    | some local' =>
      match local'.instant? zone with
      | some t => .ok t
      | none => .error (.noLocalTime shown)

end Instant

end SettingsArchive
