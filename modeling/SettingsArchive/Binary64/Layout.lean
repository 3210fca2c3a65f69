import SettingsArchive.Binary64.Shortest

/-!
# The text of a number

Numbers have two written forms.  In a database, in a snapshot and on the
terminal a number is written out without an exponent.  In a report for
programs it keeps a decimal point, and numbers far from one carry an
exponent.  A `Layout` holds what the two forms decide differently.
-/

namespace SettingsArchive.Binary64

/-- What a written form decides. -/
structure Layout where
  /-- Where the digits go when two choices are equally close. -/
  tie : Tie
  /-- The powers of ten of the first digit that are written without an
  exponent, first and last, or all of them. -/
  positional : Option (Int × Int)
  /-- Whether a whole number keeps a zero behind the point. -/
  pointZero : Bool

/-- The form of databases, snapshots and the terminal: never an exponent, and
no point in whole numbers. -/
def plainLayout : Layout := ⟨.up, none, false⟩

/-- The form of reports for programs: a point always, and an exponent unless
the first digit stands at `10 ^ -5` to `10 ^ 15`. -/
def reportLayout : Layout := ⟨.even, some (-5, 15), true⟩

/-- Digits written without an exponent. -/
def positionalText (layout : Layout) (digits : List Char) (exponent : Int) :
    List Char :=
  let count : Int := digits.length
  if 0 ≤ exponent then
    digits ++ List.replicate exponent.toNat '0'
      ++ (if layout.pointZero then ['.', '0'] else [])
  else if -exponent < count then
    let whole := (count + exponent).toNat
    digits.take whole ++ '.' :: digits.drop whole
  else
    '0' :: '.' :: List.replicate (-exponent - count).toNat '0' ++ digits

/-- Digits written with one of them before the point, and an exponent with
its sign. -/
def exponentText (digits : List Char) (first : Int) : List Char :=
  let mantissa := match digits with
    | d :: e :: rest => d :: '.' :: e :: rest
    | digits => digits
  let sign := if first < 0 then '-' else '+'
  mantissa ++ 'e' :: sign :: Nat.toDigits 10 first.natAbs

/-- The text of a magnitude that is neither infinite nor a NaN. -/
def magnitudeText (layout : Layout) (magnitude : Nat) : List Char :=
  let d := shortest layout.tie magnitude
  let digits := Nat.toDigits 10 d.digits
  let first : Int := d.exponent + digits.length - 1
  match layout.positional with
  | none => positionalText layout digits d.exponent
  | some (low, high) =>
    if d.digits = 0 ∨ (low ≤ first ∧ first ≤ high) then
      positionalText layout digits d.exponent
    else
      exponentText digits first

/-- The text of a number in databases, in snapshots and on the terminal. -/
def plainChars (x : Binary64) : List Char :=
  if x.isNaN then ['N', 'a', 'N']
  else
    let sign := if x.isNegative then ['-'] else []
    if x.isInfinite then sign ++ ['i', 'n', 'f']
    else sign ++ magnitudeText plainLayout x.magnitude

/-- The text of a number in databases, in snapshots and on the terminal. -/
def plainText (x : Binary64) : String :=
  String.ofList x.plainChars

/-- The text of a number in reports for programs, where only finite numbers
have one. -/
def reportText? (x : Binary64) : Option String :=
  if x.isNaN ∨ x.isInfinite then none
  else
    let sign := if x.isNegative then ['-'] else []
    some (String.ofList (sign ++ magnitudeText reportLayout x.magnitude))

end SettingsArchive.Binary64
