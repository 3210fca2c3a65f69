import SettingsArchive.Instant

/-!
# Reading an instant

A document dates its revisions in the form of RFC 3339.  The date has four,
two and two digits, the time follows behind a `T` or a blank, a fraction may
have any number of digits, of which nine are kept, and the offset from
universal time is `Z` or hours and minutes with a sign.

The parts are looked at from the left.  A date that the calendar does not
have is refused before the time is read, and a time that the clock does not
have after its fraction.  An offset of a day or more is refused last, when
the end of the text has been reached.
-/

namespace SettingsArchive

/-- Why a text is not an instant. -/
inductive TimeFault where
  | tooShort
  | invalid
  | outOfRange
  | tooLong
deriving DecidableEq, Repr

/-- The wording of a fault. -/
def TimeFault.message : TimeFault → String
  | .tooShort => "premature end of input"
  | .invalid => "input contains invalid characters"
  | .outOfRange => "input is out of range"
  | .tooLong => "trailing input"

namespace Instant

/-- Reads exactly `count` digits behind a number already read. -/
def readFixed : Nat → Nat → List Char → Except TimeFault (Nat × List Char)
  | 0, value, cs => .ok (value, cs)
  | _ + 1, _, [] => .error .tooShort
  | count + 1, value, c :: cs =>
    if c.isDigit then readFixed count (value * 10 + (c.toNat - 48)) cs
    else .error .invalid

/-- Reads one character of a set. -/
def readMark (marks : List Char) : List Char → Except TimeFault (List Char)
  | [] => .error .tooShort
  | c :: cs => if c ∈ marks then .ok cs else .error .invalid

/-- Reads the fraction of a second, if there is one. -/
def readFraction : List Char → Except TimeFault (Nat × List Char)
  | '.' :: cs =>
    let (digits, rest) := cs.span Char.isDigit
    if digits.isEmpty then
      .error (if cs.isEmpty then .tooShort else .invalid)
    else
      let kept := digits.take 9
      .ok (Nat.ofDigitChars 10 kept 0 * Nat.pow 10 (9 - kept.length), rest)
  | cs => .ok (0, cs)

/-- Reads two digits.  A text too short to hold them is refused as such
before its characters are looked at. -/
def readPair : List Char → Except TimeFault (Nat × List Char)
  | [] => .error .tooShort
  | [c] => .error (if c.utf8Size < 2 then .tooShort else .invalid)
  | cs => readFixed 2 0 cs

/-- Reads the offset from universal time, in seconds. -/
def readOffset : List Char → Except TimeFault (Int × List Char)
  | [] => .error .tooShort
  | c :: cs =>
    if c = 'Z' ∨ c = 'z' then .ok (0, cs)
    else do
      if c ∉ ['+', '-', '\u2212'] then throw .invalid
      let (hours, cs) ← readPair cs
      let cs ← readMark [':'] cs
      let (minutes, cs) ← readPair cs
      if 60 ≤ minutes then throw .outOfRange
      let seconds : Int := hours * 3600 + minutes * 60
      return (if c = '+' then seconds else -seconds, cs)

/-- Reads a date. -/
def readDate (cs : List Char) : Except TimeFault (Date × List Char) := do
  let (year, cs) ← readFixed 4 0 cs
  let cs ← readMark ['-'] cs
  let (month, cs) ← readFixed 2 0 cs
  let cs ← readMark ['-'] cs
  let (day, cs) ← readFixed 2 0 cs
  let d : Date := ⟨year, month, day⟩
  if !d.isValid then throw .outOfRange
  return (d, cs)

/-- The second of the day and the nanoseconds of a time of day.  The sixtieth
second of a minute is a leap second. -/
def clock? (hour minute second nano : Nat) : Option (Nat × Nat) :=
  if hour < 24 ∧ minute < 60 ∧ second ≤ 60 then
    if second = 60 then
      some (hour * 3600 + minute * 60 + 59, 1000000000 + nano)
    else
      some (hour * 3600 + minute * 60 + second, nano)
  else none

/-- Reads a time of day: the second of the day and the nanoseconds. -/
def readClock (cs : List Char) :
    Except TimeFault ((Nat × Nat) × List Char) := do
  let (hour, cs) ← readFixed 2 0 cs
  let cs ← readMark [':'] cs
  let (minute, cs) ← readFixed 2 0 cs
  let cs ← readMark [':'] cs
  let (second, cs) ← readFixed 2 0 cs
  let (nano, cs) ← readFraction cs
  match clock? hour minute second nano with
  | some time => return (time, cs)
  | none => throw .outOfRange

/-- The instant at a second of a day and nanoseconds, both read from a clock
that is ahead of universal time by `offset` seconds. -/
def ofLocal? (d : Date) (time : Nat × Nat) (offset : Int) : Option Instant :=
  ofUnix? ((d.dayNumber - Date.epochDay) * 86400 + time.1 - offset) time.2

/-- Reads an instant in the form of RFC 3339. -/
def readRfc3339 (cs : List Char) : Except TimeFault Instant := do
  if (String.ofList cs).utf8ByteSize < 19 then throw .tooShort
  let (d, cs) ← readDate cs
  let cs ← readMark ['T', 't', ' '] cs
  let (time, cs) ← readClock cs
  let (offset, cs) ← readOffset cs
  if !cs.isEmpty then throw .tooLong
  if 86400 ≤ offset.natAbs then throw .outOfRange
  match ofLocal? d time offset with
  | some t => return t
  | none => throw .outOfRange

end Instant

end SettingsArchive
