import SettingsArchive.Json
import SettingsArchive.Numeral

/-!
# Numbers in JSON text

A number is read in two steps.  `Literal` holds its parts as they are
written, and `Literal.value` computes what they stand for.

A number without point and exponent is a whole number if it has at most
sixty-four bits.  Every other number is computed from as many leading digits
as fit into sixty-four bits, rounded, and then multiplied or divided once by
a power of ten that is rounded itself, so the last bit may differ from that of
the closest number.
-/

namespace SettingsArchive.Json

/-- The parts of a number as it is written. -/
structure Literal where
  negative : Bool
  whole : List Char
  fraction : List Char
  /-- Whether a point or an exponent is written. -/
  marked : Bool
  exponent : Int

/-- Takes in digits while the number fits into sixty-four bits.  The result
has the number and the count of digits left over. -/
def absorb : Nat → List Char → Nat × Nat
  | n, [] => (n, 0)
  | n, c :: cs =>
    let m := n * 10 + (c.toNat - 48)
    if Numeral.maxWord < m then (n, cs.length + 1) else absorb m cs

/-- The magnitude of the product of a magnitude and a power of ten. -/
def productOf (magnitude power : Nat) : Nat :=
  let (n, d) := Binary64.ratio magnitude
  let (p, q) := Binary64.ratio (Binary64.nearest (Nat.pow 10 power) 1)
  Binary64.nearest (n * p) (d * q)

/-- The magnitude of the quotient of a magnitude and a power of ten. -/
def ratioOf (magnitude power : Nat) : Nat :=
  let (n, d) := Binary64.ratio magnitude
  let (p, q) := Binary64.ratio (Binary64.nearest (Nat.pow 10 power) 1)
  Binary64.nearest (n * q) (d * p)

/-- The power of ten of the largest division or multiplication. -/
def maxPower : Nat := 308

/-- The magnitude of a magnitude moved by a power of ten, unless it is too
large.  A division by a power that is too large is done in steps. -/
def scale? (magnitude : Nat) (exponent : Int) : Option Nat :=
  if 0 ≤ exponent then
    if magnitude = 0 then some 0
    else if maxPower < exponent then none
    else
      let m := productOf magnitude exponent.toNat
      if m = Binary64.infinity then none else some m
  else if -exponent ≤ maxPower then some (ratioOf magnitude (-exponent).toNat)
  else if magnitude = 0 then some 0
  else scale? (ratioOf magnitude maxPower) (exponent + maxPower)
termination_by (-exponent).toNat
decreasing_by simp only [maxPower] at *; omega

/-- What a number stands for. -/
def Literal.value (l : Literal) : Json :=
  let (n, dropped) := absorb 0 l.whole
  if !l.marked && dropped == 0 && (!l.negative || (0 < n && n ≤ Numeral.maxInt64 + 1)) then
    .int (if l.negative then -n else n)
  else
    let (m, left) := absorb n l.fraction
    let exponent := dropped - ((l.fraction.length - left : Nat) : Int)
      + l.exponent
    match scale? (Binary64.nearest m 1) exponent with
    | some magnitude => .float (Binary64.ofMagnitude l.negative magnitude)
    | none => .broken

/-- Reads the exponent of a number, if there is one. -/
def readExponent? (cs : List Char) : Option (Option Int × List Char) :=
  match cs with
  | [] => some (none, [])
  | c :: rest =>
    if c = 'e' ∨ c = 'E' then
      let (negative, rest) := match rest with
        | '+' :: rest => (false, rest)
        | '-' :: rest => (true, rest)
        | rest => (false, rest)
      let digits := rest.takeWhile Char.isDigit
      if digits.isEmpty then none
      else
        let n : Int := Nat.ofDigitChars 10 digits 0
        some (some (if negative then -n else n), rest.dropWhile Char.isDigit)
    else some (none, cs)

/-- Reads the number at the beginning of some characters. -/
def readLiteral? (cs : List Char) : Option (Literal × List Char) := do
  let (negative, cs) := match cs with
    | '-' :: cs => (true, cs)
    | cs => (false, cs)
  let whole := cs.takeWhile Char.isDigit
  let cs := cs.dropWhile Char.isDigit
  if whole.isEmpty || (whole.head? == some '0' && 1 < whole.length) then
    failure
  let (fraction, point, cs) := match cs with
    | '.' :: cs =>
      (cs.takeWhile Char.isDigit, true, cs.dropWhile Char.isDigit)
    | cs => ([], false, cs)
  if point && fraction.isEmpty then failure
  let (exponent, cs) ← readExponent? cs
  return (⟨negative, whole, fraction, point || exponent.isSome,
    exponent.getD 0⟩, cs)

end SettingsArchive.Json
