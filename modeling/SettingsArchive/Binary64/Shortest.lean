import SettingsArchive.Binary64

/-!
# The fewest digits that read back

A number is written with as few decimal digits as identify it.  `shortest`
tries one digit, two digits and so on.  For each count it looks at the two
decimal numbers around the value and keeps those that round to it.  Of two
it takes the nearer one.  The two formats of this library differ only in
where an exact tie goes.

Every candidate is tested before it is taken, which `toMagnitude_candidate?`
records.  `exact` stands behind the search, so `shortest` needs no bound on
the count of digits.
-/

namespace SettingsArchive.Binary64

/-- The decimal number `digits * 10 ^ exponent`. -/
structure Decimal where
  digits : Nat
  exponent : Int
deriving DecidableEq, Repr

/-- Which of two neighbours at the same distance is taken. -/
inductive Tie where
  | up
  | even
deriving DecidableEq, Repr

/-- Rounds a decimal number to a magnitude. -/
def Decimal.toMagnitude (d : Decimal) : Nat :=
  ofDecimal d.digits d.exponent

/-- The count of the decimal digits of a whole number. -/
def digitCount (n : Nat) : Nat :=
  (Nat.toDigits 10 n).length

/-- The power of ten of the first digit of a positive fraction. -/
def floorLog10 (num den : Nat) : Int :=
  if den ≤ num then (digitCount (num / den) : Int) - 1
  else -(digitCount ((den + num - 1) / num - 1) : Int)

/-- Drops the zeros at the end of the digits.  `fuel` bounds their count. -/
def dropZeros : Nat → Decimal → Decimal
  | 0, d => d
  | fuel + 1, d =>
    if d.digits % 10 = 0 ∧ d.digits ≠ 0 then
      dropZeros fuel ⟨d.digits / 10, d.exponent + 1⟩
    else d

/-- Takes one of two decimal numbers, if one reads back.  `upwards` settles
the choice when both do. -/
def choose? (magnitude : Nat) (low high : Decimal) (upwards : Bool) :
    Option Decimal :=
  if low.toMagnitude = magnitude then
    if high.toMagnitude = magnitude ∧ upwards then some high else some low
  else if high.toMagnitude = magnitude then some high
  else none

/-- The candidate with `count` digits, if one of the two decimal numbers
around the value reads back. -/
def candidate? (tie : Tie) (magnitude count : Nat) : Option Decimal :=
  let (num, den) := ratio magnitude
  let exponent := floorLog10 num den - count + 1
  let above := num * Nat.pow 10 (-exponent).toNat
  let below := den * Nat.pow 10 exponent.toNat
  let whole := above / below
  let rest := above % below
  let upwards :=
    below < 2 * rest || (below == 2 * rest && (tie == .up || whole % 2 == 1))
  choose? magnitude (dropZeros 20 ⟨whole, exponent⟩)
    (dropZeros 20 ⟨whole + 1, exponent⟩) upwards

/-- The value itself, written out. -/
def exact (magnitude : Nat) : Decimal :=
  let (factor, power) := scaled magnitude
  if 0 ≤ power then ⟨factor <<< power.toNat, 0⟩
  else ⟨factor * Nat.pow 5 (-power).toNat, power⟩

/-- The fewest digits that read back as a finite magnitude, and of those the
closest to its value. -/
def shortest (tie : Tie) (magnitude : Nat) : Decimal :=
  if magnitude = 0 then ⟨0, 0⟩
  else
    let found := (List.range 17).findSome? fun n =>
      candidate? tie magnitude (n + 1)
    found.getD (exact magnitude)

/-! ## The digits read back -/

/-- The number taken reads back. -/
theorem toMagnitude_choose? {magnitude : Nat} {low high d : Decimal}
    {upwards : Bool} (h : choose? magnitude low high upwards = some d) :
    d.toMagnitude = magnitude := by
  unfold choose? at h
  split at h
  · rename_i hlow
    split at h
    · rename_i hhigh
      exact Option.some.inj h ▸ hhigh.1
    · exact Option.some.inj h ▸ hlow
  · split at h
    · rename_i hhigh
      exact Option.some.inj h ▸ hhigh
    · simp at h

/-- A candidate reads back. -/
theorem toMagnitude_candidate? {tie : Tie} {magnitude count : Nat}
    {d : Decimal} (h : candidate? tie magnitude count = some d) :
    d.toMagnitude = magnitude :=
  toMagnitude_choose? h

end SettingsArchive.Binary64
