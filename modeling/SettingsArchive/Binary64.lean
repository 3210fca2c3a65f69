/-!
# Binary floating-point numbers

A number setting holds a binary floating-point number of sixty-four bits.
It is kept as its bits, so that saving and loading can be compared bit for
bit, and everything about it is computed in whole numbers.

There are three groups.

* The bits and what they stand for.  `ratio` is the exact value of a finite
  magnitude as a fraction.
* Rounding.  `nearest` is the magnitude closest to a fraction, a half going
  to the even neighbour, and infinity above the largest finite magnitude.
* Reading.  `ofDecimal` rounds a decimal number, and `read?` reads the text
  of one.

A *magnitude* is the bits without the sign, so the magnitudes in increasing
order are the numbers from zero to infinity in increasing order, and behind
them come the NaNs.
-/

namespace SettingsArchive

/-- A binary floating-point number of sixty-four bits. -/
structure Binary64 where
  bits : UInt64
deriving DecidableEq, Repr

namespace Binary64

/-! ## The bits -/

/-- The magnitude of infinity. -/
def infinity : Nat := 0x7FF0000000000000

/-- The bit of the sign. -/
def signBit : Nat := 0x8000000000000000

/-- The first bit of the factor of a magnitude, which is not stored. -/
def leadingBit : Nat := 0x10000000000000

/-- The number with this sign and this magnitude. -/
def ofMagnitude (negative : Bool) (magnitude : Nat) : Binary64 :=
  ⟨UInt64.ofNat (if negative then signBit + magnitude else magnitude)⟩

/-- Whether the sign bit is set. -/
def isNegative (x : Binary64) : Bool :=
  signBit ≤ x.bits.toNat

/-- The bits without the sign. -/
def magnitude (x : Binary64) : Nat :=
  x.bits.toNat % signBit

/-- Whether the bits stand for no number. -/
def isNaN (x : Binary64) : Bool :=
  infinity < x.magnitude

/-- Whether the number is infinite. -/
def isInfinite (x : Binary64) : Bool :=
  x.magnitude == infinity

/-- The NaN that reading produces. -/
def nan : Binary64 := ofMagnitude false 0x7FF8000000000000

/-- Numbers are compared by value: a NaN differs from everything, and the
two zeros are equal. -/
instance : BEq Binary64 where
  beq x y :=
    !x.isNaN && !y.isNaN
      && (x.bits == y.bits || (x.magnitude == 0 && y.magnitude == 0))

/-- The factor and the power of two of a finite magnitude. -/
def scaled (magnitude : Nat) : Nat × Int :=
  if magnitude < leadingBit then (magnitude, -1074)
  else
    (leadingBit + magnitude % leadingBit,
      (magnitude / leadingBit : Nat) - 1075)

/-- The exact value of a finite magnitude, as a fraction. -/
def ratio (magnitude : Nat) : Nat × Nat :=
  let (factor, power) := scaled magnitude
  (factor <<< power.toNat, 1 <<< (-power).toNat)

/-! ## Rounding -/

/-- The whole number closest to a fraction.  A half goes to the even
neighbour. -/
def roundEven (num den : Nat) : Nat :=
  let q := num / den
  let r := num % den
  if 2 * r < den then q
  else if den < 2 * r then q + 1
  else q + q % 2

/-- The largest power of two that is not above a positive fraction. -/
def floorLog2 (num den : Nat) : Int :=
  let e : Int := (Nat.log2 num : Int) - (Nat.log2 den : Int)
  if den <<< e.toNat ≤ num <<< (-e).toNat then e else e - 1

/-- The magnitude closest to a fraction. -/
def nearest (num den : Nat) : Nat :=
  if num = 0 then 0
  else
    let power := max (floorLog2 num den - 52) (-1074)
    let factor :=
      roundEven (num <<< (-power).toNat) (den <<< power.toNat)
    min ((power + 1074).toNat * leadingBit + factor) infinity

/-! ## Reading -/

/-- The magnitude closest to `digits * 10 ^ exponent`.  An exponent far out
of range is settled before a power of ten is computed. -/
def ofDecimal (digits : Nat) (exponent : Int) : Nat :=
  let first := ((Nat.toDigits 10 digits).length : Int) - 1 + exponent
  if digits = 0 ∨ first < -400 then 0
  else if 400 < first then infinity
  else
    nearest (digits * Nat.pow 10 exponent.toNat)
      (Nat.pow 10 (-exponent).toNat)

/-- The digits at the beginning of a text, and what follows them. -/
def spanDigits (cs : List Char) : List Char × List Char :=
  cs.span Char.isDigit

/-- The exponent at the end of a number: nothing, or `e` and a whole number. -/
def readExponent? : List Char → Option Int
  | [] => some 0
  | c :: cs =>
    if c = 'e' ∨ c = 'E' then
      let (negative, ds) := match cs with
        | '+' :: ds => (false, ds)
        | '-' :: ds => (true, ds)
        | ds => (false, ds)
      if ds.isEmpty ∨ !ds.all Char.isDigit then none
      else
        let n : Int := Nat.ofDigitChars 10 ds 0
        some (if negative then -n else n)
    else none

/-- The digits before and behind the point and the exponent of an unsigned
number.  One of the two groups of digits may be missing. -/
def readMagnitude? (cs : List Char) : Option Nat :=
  let (whole, rest) := spanDigits cs
  let (fraction, rest) := match rest with
    | '.' :: rest => spanDigits rest
    | rest => ([], rest)
  if whole.isEmpty ∧ fraction.isEmpty then none
  else do
    let exponent ← readExponent? rest
    return ofDecimal (Nat.ofDigitChars 10 (whole ++ fraction) 0)
      (exponent - fraction.length)

/-- Reads the text of a number: an optional sign, and digits with an optional
point and exponent, or a name of infinity or of a NaN in letters of either
case. -/
def read? (cs : List Char) : Option Binary64 :=
  let (negative, body) := match cs with
    | '+' :: body => (false, body)
    | '-' :: body => (true, body)
    | body => (false, body)
  let word := String.ofList (body.map Char.toLower)
  if word = "inf" ∨ word = "infinity" then
    some (ofMagnitude negative infinity)
  else if word = "nan" then
    some (ofMagnitude negative nan.magnitude)
  else
    (readMagnitude? body).map (ofMagnitude negative)

end Binary64

end SettingsArchive
