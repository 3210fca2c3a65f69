import SettingsArchive.Zone

/-!
# Reading a time zone

A zone is written as a name and an offset, for instance `AAA5`, where the
offset says how far the clocks are behind universal time.  Behind them may
stand a second name for the other part of the year, its offset if it is not
one hour ahead, and the two days of change with their local times, two
o'clock if none is given: `AAA5BBB,M3.2.0,M11.1.0/2`.

The names say nothing to the archive.  A text that is not of this form means
universal time.
-/

namespace SettingsArchive

namespace Zone

/-- Reads a number from `least` to `greatest`. -/
def readNumber? (least greatest : Nat) (cs : List Char) :
    Option (Nat × List Char) :=
  let (digits, rest) := cs.span Char.isDigit
  let n := Nat.ofDigitChars 10 digits 0
  if digits.isEmpty ∨ n < least ∨ greatest < n then none else some (n, rest)

/-- Takes a character that must be there. -/
def readMark? (mark : Char) : List Char → Option (List Char)
  | [] => none
  | c :: cs => if c = mark then some cs else none

/-! ## Names and offsets -/

/-- Whether some characters are the name of a zone. -/
def isName (name : List Char) : Bool :=
  3 ≤ name.length && name.length ≤ 7
    && name.all fun c => c.isAlphanum || c == '+' || c == '-'

/-- Reads a name, which is not kept: letters, or any name between angle
brackets. -/
def readName? : List Char → Option (List Char)
  | '<' :: cs => do
    let (name, cs) := cs.span (· ≠ '>')
    let cs ← readMark? '>' cs
    if isName name then some cs else none
  | cs =>
    let (name, cs) := cs.span Char.isAlpha
    if isName name then some cs else none

/-- Reads minutes or seconds behind a colon, which may be missing. -/
def readPart? : List Char → Option (Nat × List Char)
  | ':' :: cs => readNumber? 0 59 cs
  | cs => some (0, cs)

/-- Reads hours, at most `greatest`, minutes and seconds. -/
def readTime? (greatest : Nat) (cs : List Char) :
    Option (Nat × List Char) := do
  let (hours, cs) ← readNumber? 0 greatest cs
  let (minutes, cs) ← readPart? cs
  let (seconds, cs) ← readPart? cs
  return (hours * 3600 + minutes * 60 + seconds, cs)

/-- Reads how far the clocks are behind universal time, which is less than a
day.  The answer is how far they are ahead. -/
def readOffset? : List Char → Option (Int × List Char)
  | '-' :: cs => do
    let (n, cs) ← readTime? 23 cs
    return ((n : Int), cs)
  | '+' :: cs => do
    let (n, cs) ← readTime? 23 cs
    return (-(n : Int), cs)
  | cs => do
    let (n, cs) ← readTime? 23 cs
    return (-(n : Int), cs)

/-! ## Changes -/

/-- Reads a day of the year. -/
def readDay? : List Char → Option (YearDay × List Char)
  | 'M' :: cs => do
    let (month, cs) ← readNumber? 1 12 cs
    let cs ← readMark? '.' cs
    let (week, cs) ← readNumber? 1 5 cs
    let cs ← readMark? '.' cs
    let (day, cs) ← readNumber? 0 6 cs
    return (.weekday month week day, cs)
  | 'J' :: cs => do
    let (day, cs) ← readNumber? 1 365 cs
    return (.common day, cs)
  | cs => do
    let (day, cs) ← readNumber? 0 365 cs
    return (.counted day, cs)

/-- Reads a change of the clocks. -/
def readChange? (cs : List Char) : Option (ClockChange × List Char) := do
  let cs ← readMark? ',' cs
  let (day, cs) ← readDay? cs
  match cs with
  | '/' :: cs => do
    let (second, cs) ← readTime? 24 cs
    return (⟨day, second⟩, cs)
  | cs => return (⟨day, 7200⟩, cs)

/-- Reads the other part of the year up to the end of the text. -/
def readDaylight? (standard : Int) (cs : List Char) : Option Daylight := do
  let cs ← readName? cs
  let (offset, cs) ←
    match cs with
    | ',' :: _ => some (standard + 3600, cs)
    | cs => readOffset? cs
  let (start, cs) ← readChange? cs
  let (finish, cs) ← readChange? cs
  if cs.isEmpty then some ⟨offset, start, finish⟩ else none

/-! ## The whole text -/

/-- Whether a character is a blank around the text of a zone. -/
def isGap (c : Char) : Bool :=
  c == ' ' || c == '\t' || c == '\n' || c == '\r' || c == '\x0c'

/-- The zone that a text describes. -/
def ofText? (text : String) : Option Zone := do
  let cs := ((text.toList.dropWhile isGap).reverse.dropWhile isGap).reverse
  let cs ← readName? cs
  let (standard, cs) ← readOffset? cs
  if cs.isEmpty then return ⟨standard, none⟩
  let daylight ← readDaylight? standard cs
  return ⟨standard, some daylight⟩

/-- The zone of a setting that may be missing. -/
def ofSetting (text : Option String) : Zone :=
  (text.bind ofText?).getD universal

end Zone

end SettingsArchive
