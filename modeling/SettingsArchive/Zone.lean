import SettingsArchive.Calendar

/-!
# Time zones

A zone says how far the clocks of a place are ahead of universal time.  They
may be ahead by another offset during a part of every year, which begins and
ends at a local time of two days of the year.

When the clocks are put forward, some local times do not exist, and when they
are put back, some exist twice.  `offsetsAt` therefore answers a list: no
offset, one, or two of which the smaller comes first.
-/

namespace SettingsArchive

/-- A day of every year. -/
inductive YearDay where
  /-- A weekday of a month, where Sunday is zero.  The fifth one is the
  last. -/
  | weekday (month week day : Nat)
  /-- A day counted from one.  The twenty-ninth of February does not count. -/
  | common (day : Nat)
  /-- A day counted from zero. -/
  | counted (day : Nat)
deriving DecidableEq, Repr

namespace YearDay

/-- The date of a day counted from zero, given the lengths of the months.  What
is left behind the eleventh month lies in the twelfth. -/
def dateIn (year : Int) (lengths : List Nat) (day : Nat) : Date :=
  let (month, day) := Date.monthAndDay 1 (lengths.take 11) day
  ⟨year, month, day⟩

/-- The weekday of a day of the calendar. -/
def weekdayOf (day : Int) : Int :=
  (day - Date.epochDay + 4) % 7

/-- The date in a year. -/
def date (year : Int) : YearDay → Date
  | .weekday month week day =>
    let first := weekdayOf (Date.dayNumber ⟨year, month, 1⟩)
    let found := 1 + ((day : Int) - first) % 7 + ((week : Int) - 1) * 7
    let length := (Date.monthLengths year).getD (month - 1) 0
    ⟨year, month, (if length < found then found - 7 else found).toNat⟩
  | .common day => dateIn year (Date.monthLengths 1) (day - 1)
  | .counted day => dateIn year (Date.monthLengths year) day

end YearDay

/-- A change of the clocks: a day, and the second of the day. -/
structure ClockChange where
  day : YearDay
  second : Nat
deriving DecidableEq, Repr

namespace ClockChange

/-- The second of a change in a year, counted from the beginning of 1970 by a
clock that has not been changed. -/
def secondIn (year : Int) (c : ClockChange) : Int :=
  ((c.day.date year).dayNumber - Date.epochDay) * 86400 + c.second

/-- Whether a change lies in an earlier month of a year than another. -/
def isMonthBefore (year : Int) (c d : ClockChange) : Bool :=
  (c.day.date year).month < (d.day.date year).month

end ClockChange

/-- The part of the year in which clocks have another offset. -/
structure Daylight where
  offset : Int
  start : ClockChange
  finish : ClockChange
deriving DecidableEq, Repr

/-- How far the clocks of a place are ahead of universal time, in seconds. -/
structure Zone where
  standard : Int
  daylight : Option Daylight := none
deriving DecidableEq, Repr

namespace Zone

/-- The zone of universal time. -/
def universal : Zone := ⟨0, none⟩

/-- The offsets of a local second of a year in which the clocks go from `low`
to `high` at the local second `up`, and from `high` to `low` at the local
second `down`.  A local second at which a change ends the old time still has
the old offset. -/
def offsetsBetween (low high up down : Int) (upFirst : Bool) (second : Int) :
    List Int :=
  let step := high - low
  if upFirst then
    if second ≤ up then [low]
    else if second < up + step then []
    else if second < down - step then [high]
    else if second ≤ down then [low, high]
    else [low]
  else
    if second < down - step then [high]
    else if second ≤ down then [low, high]
    else if second < up then [low]
    else if second < up + step then []
    else [high]

/-- The offsets that the clocks have at a local second of a year. -/
def offsetsAt (z : Zone) (year second : Int) : List Int :=
  match z.daylight with
  | none => [z.standard]
  | some d =>
    let start := d.start.secondIn year
    let finish := d.finish.secondIn year
    let startFirst := d.start.isMonthBefore year d.finish
    if z.standard < d.offset then
      offsetsBetween z.standard d.offset start finish startFirst second
    else if d.offset < z.standard then
      offsetsBetween d.offset z.standard finish start (!startFirst) second
    else [z.standard]

/-- The second of universal time of a local second, if both are within the
calendar and the clocks are less than a day ahead or behind. -/
def toUniversal? (first last second offset : Int) : Option Int :=
  if offset.natAbs < 86400 ∧ first ≤ second - offset ∧ second - offset ≤ last
  then some (second - offset) else none

/-- The second of universal time of a local second of a year, the earlier or
only one that its offsets lead to.  `first` and `last` are the ends of the
calendar. -/
def universalSecond? (z : Zone) (first last year second : Int) : Option Int :=
  match (z.offsetsAt year second).mapM (toUniversal? first last second) with
  | some (found :: _) => some found
  | _ => none

end Zone

end SettingsArchive
