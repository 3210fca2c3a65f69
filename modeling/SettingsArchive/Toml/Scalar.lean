import SettingsArchive.Numeral
import SettingsArchive.Toml

/-!
# TOML numbers, truth values and dates

A scalar that is not a string is one word.  `Toml.ofWord?` tries the kinds
one after the other: no word is of two kinds.  Digits may be grouped with
underscores, each of them between two digits.
-/

namespace SettingsArchive

namespace Toml

/-- Whether a character may stand in a word. -/
def isWordChar (c : Char) : Bool :=
  c.isAlphanum || c == '_' || c == '-' || c == '+' || c == '.' || c == ':'

/-! ## Numbers -/

/-- One digit or more without the underscores between them. -/
def ungrouped? (isDigit : Char → Bool) : List Char → Option (List Char)
  | [] => none
  | [c] => if isDigit c then some [c] else none
  | c :: '_' :: cs =>
    if isDigit c then (c :: ·) <$> ungrouped? isDigit cs else none
  | c :: cs => if isDigit c then (c :: ·) <$> ungrouped? isDigit cs else none

/-- The characters without a sign in front. -/
def unsigned : List Char → List Char
  | '+' :: cs => cs
  | '-' :: cs => cs
  | cs => cs

/-- Whether some characters are a decimal whole number: zero, or digits that
do not begin with zero. -/
def isDecimal (cs : List Char) : Bool :=
  match unsigned cs with
  | ['0'] => true
  | '0' :: _ => false
  | cs => (ungrouped? Char.isDigit cs).isSome

/-- A whole number in a base that is not ten. -/
def based? (base : Nat) (cs : List Char) : Option Int := do
  let digits ← ungrouped? (fun c => (Numeral.digit? base c).isSome) cs
  let n ← (Numeral.readDigits base Numeral.maxInt64 0 digits).toOption
  return n

/-- A whole number of sixty-four bits. -/
def integer? : List Char → Option Int
  | '0' :: 'x' :: cs => based? 16 cs
  | '0' :: 'o' :: cs => based? 8 cs
  | '0' :: 'b' :: cs => based? 2 cs
  | cs =>
    if isDecimal cs then
      (Numeral.readInt Numeral.maxInt64 (cs.filter (· ≠ '_'))).toOption
    else none

/-- Whether some characters are the digits of an exponent. -/
def isExponent (cs : List Char) : Bool :=
  (ungrouped? Char.isDigit (unsigned cs)).isSome

/-- Whether a character stands in front of an exponent. -/
def isExponentMark (c : Char) : Bool :=
  c == 'e' || c == 'E'

/-- Whether some characters are a number with a point or an exponent. -/
def isPointed (cs : List Char) : Bool :=
  let (whole, rest) := cs.span fun c => c ≠ '.' && !isExponentMark c
  isDecimal whole &&
    match rest with
    | '.' :: rest =>
      let (fraction, rest) := rest.span fun c => !isExponentMark c
      (ungrouped? Char.isDigit fraction).isSome
        && (rest.isEmpty || isExponent (rest.drop 1))
    | _ :: exponent => isExponent exponent
    | [] => false

/-- A number with a point or an exponent.  One that is too large is refused,
and one that is too small becomes negative infinity. -/
def float? (cs : List Char) : Option Binary64 :=
  let word := String.ofList (unsigned cs)
  if word = "inf" ∨ word = "nan" then Binary64.read? cs
  else if isPointed cs then do
    let x ← Binary64.read? (cs.filter (· ≠ '_'))
    if x.isInfinite && !x.isNegative then none else return x
  else none

/-! ## Dates and times -/

/-- The number of some digits, if there are so many and it lies between
bounds. -/
def fixed? (count least greatest : Nat) (cs : List Char) : Option Nat :=
  let n := Nat.ofDigitChars 10 cs 0
  if cs.length = count ∧ cs.all Char.isDigit ∧ least ≤ n ∧ n ≤ greatest
  then some n else none

/-- The number of days of a month. -/
def daysOfMonth (year month : Nat) : Nat :=
  if month = 2 then
    if year % 4 = 0 ∧ (year % 100 ≠ 0 ∨ year % 400 = 0) then 29 else 28
  else if month ∈ [4, 6, 9, 11] then 30
  else 31

/-- Whether ten characters are a date. -/
def isDate (cs : List Char) : Bool :=
  match fixed? 4 0 9999 (cs.take 4), fixed? 2 1 12 ((cs.drop 5).take 2),
      fixed? 2 1 31 (cs.drop 8) with
  | some year, some month, some day =>
    cs[4]? == some '-' && cs[7]? == some '-' && day ≤ daysOfMonth year month
  | _, _, _ => false

/-- Whether five characters are hours and minutes. -/
def isHourAndMinute (cs : List Char) : Bool :=
  (fixed? 2 0 23 (cs.take 2)).isSome && cs[2]? == some ':'
    && (fixed? 2 0 59 (cs.drop 3)).isSome

/-- What stands behind a time of day, if there is one in front. -/
def afterTime? (cs : List Char) : Option (List Char) :=
  let rest := cs.drop 8
  if isHourAndMinute (cs.take 5) ∧ cs[5]? = some ':'
      ∧ (fixed? 2 0 60 ((cs.drop 6).take 2)).isSome then
    match rest with
    | '.' :: rest =>
      let (fraction, rest) := rest.span Char.isDigit
      if fraction.isEmpty then none else some rest
    | rest => some rest
  else none

/-- Whether some characters are an offset from universal time, or nothing. -/
def isZoneOffset : List Char → Bool
  | [] => true
  | ['Z'] => true
  | ['z'] => true
  | '+' :: cs => isHourAndMinute cs
  | '-' :: cs => isHourAndMinute cs
  | _ => false

/-- Whether some characters are a time of day with or without an offset from
universal time. -/
def isZonedTime (cs : List Char) : Bool :=
  ((afterTime? cs).map isZoneOffset).getD false

/-- Whether a word is a date, a time, or both. -/
def isMoment (cs : List Char) : Bool :=
  match cs.drop 10 with
  | [] => isDate cs || afterTime? cs == some []
  | 'T' :: time => isDate (cs.take 10) && isZonedTime time
  | 't' :: time => isDate (cs.take 10) && isZonedTime time
  | _ => afterTime? cs == some []

/-! ## Words -/

/-- The value of a word. -/
def ofWord? (cs : List Char) : Option Toml :=
  if cs = ['t', 'r', 'u', 'e'] then some (.bool true)
  else if cs = ['f', 'a', 'l', 's', 'e'] then some (.bool false)
  else if isMoment cs then some .moment
  else
    match integer? cs, float? cs with
    | some n, _ => some (.integer n)
    | none, some x => some (.float x)
    | none, none => none

/-- Reads a word.  A date and a time may be divided by a blank. -/
def readWord? (cs : List Char) : Option (Toml × List Char) := do
  let (word, rest) := cs.span isWordChar
  let value ← ofWord? word
  match rest with
  | ' ' :: more =>
    let (time, behind) := more.span isWordChar
    if isDate word ∧ isZonedTime time then return (value, behind)
    else return (value, rest)
  | rest => return (value, rest)

end Toml

end SettingsArchive
