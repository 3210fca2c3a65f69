/-!
# Whole numbers as text

Revision ids, version numbers, whole settings, waiting times and character
references are all written as whole numbers.  This module reads them.  A
number is an optional sign and one or more digits, and it must lie in the
range that the reader gives.

Digits are looked at from the left, so of two faults in one text the one
further left is reported.

`readNat_toDigits` says that the digits of a number in range read back as
that number.
-/

namespace SettingsArchive

/-- Why a text is not a whole number of the range asked for. -/
inductive NumeralFault where
  | empty
  | invalidDigit
  | tooLarge
  | tooSmall
deriving DecidableEq, Repr

/-- The wording of a fault. -/
def NumeralFault.message : NumeralFault → String
  | .empty => "cannot parse integer from empty string"
  | .invalidDigit => "invalid digit found in string"
  | .tooLarge => "number too large to fit in target type"
  | .tooSmall => "number too small to fit in target type"

namespace Numeral

/-- The largest number of thirty-two bits. -/
def maxHalfWord : Nat := 0xFFFFFFFF

/-- The largest number of sixty-four bits, the bound of every revision id. -/
def maxWord : Nat := 0xFFFFFFFFFFFFFFFF

/-- The value of a digit in a base of at most sixteen. -/
def digit? (base : Nat) (c : Char) : Option Nat :=
  let v :=
    if '0' ≤ c ∧ c ≤ '9' then c.toNat - 48
    else if 'a' ≤ c ∧ c ≤ 'f' then c.toNat - 87
    else if 'A' ≤ c ∧ c ≤ 'F' then c.toNat - 55
    else base
  if v < base then some v else none

/-- Reads digits behind a number already read, which may not grow above
`max`. -/
def readDigits (base max : Nat) : Nat → List Char → Except NumeralFault Nat
  | value, [] => .ok value
  | value, c :: cs =>
    match digit? base c with
    | none => .error .invalidDigit
    | some d =>
      if max < value * base + d then .error .tooLarge
      else readDigits base max (value * base + d) cs

/-- Reads a number from zero to `max`.  It may carry a plus sign. -/
def readNat (base max : Nat) : List Char → Except NumeralFault Nat
  | [] => .error .empty
  | ['+'] => .error .invalidDigit
  | '+' :: cs => readDigits base max 0 cs
  | cs => readDigits base max 0 cs

/-- Reads a number from `-(max + 1)` to `max`.  It may carry a sign. -/
def readInt (max : Nat) : List Char → Except NumeralFault Int
  | ['-'] => .error .invalidDigit
  | '-' :: cs =>
    match readDigits 10 (max + 1) 0 cs with
    | .ok n => .ok (-n)
    | .error .tooLarge => .error .tooSmall
    | .error fault => .error fault
  | cs => (readNat 10 max cs).map Int.ofNat

/-- The largest signed number of sixty-four bits. -/
def maxInt64 : Nat := 0x7FFFFFFFFFFFFFFF

/-- Reads a signed number of sixty-four bits. -/
def readInt64 (cs : List Char) : Except NumeralFault Int64 :=
  (readInt maxInt64 cs).map Int64.ofInt

/-! ## Written numbers read back -/

/-- A digit character has the value of its digit. -/
theorem digit?_digitChar {d : Nat} (h : d < 10) :
    digit? 10 d.digitChar = some d := by
  have : d = 0 ∨ d = 1 ∨ d = 2 ∨ d = 3 ∨ d = 4 ∨ d = 5 ∨ d = 6 ∨ d = 7 ∨
      d = 8 ∨ d = 9 := by omega
  rcases this with rfl | rfl | rfl | rfl | rfl | rfl | rfl | rfl | rfl | rfl <;>
    rfl

/-- Digits behind digits are read after them. -/
theorem readDigits_append {base max value n : Nat} {cs ds : List Char}
    (h : readDigits base max value cs = .ok n) :
    readDigits base max value (cs ++ ds) = readDigits base max n ds := by
  induction cs generalizing value with
  | nil =>
    injection h with h
    rw [List.nil_append, h]
  | cons c cs ih =>
    rw [List.cons_append, readDigits]
    rw [readDigits] at h
    split at h
    · simp at h
    · split at h
      · simp at h
      · rename_i _ _ hd hm
        simp only [hm, if_false]
        exact ih h

/-- The digits of a number in range read back as that number. -/
theorem readDigits_toDigits {max n : Nat} (h : n ≤ max) :
    readDigits 10 max 0 (Nat.toDigits 10 n) = .ok n := by
  induction n using Nat.strongRecOn with
  | _ n ih =>
    by_cases hn : n < 10
    · rw [Nat.toDigits_of_lt_base hn, readDigits, digit?_digitChar hn]
      have : ¬ max < 0 * 10 + n := by omega
      simp only [this, if_false, readDigits]
      congr 1
      omega
    · have hd : n % 10 < 10 := Nat.mod_lt _ (by omega)
      rw [Nat.toDigits_of_base_le (by omega) (by omega),
        readDigits_append (ih (n / 10) (by omega) (by omega)), readDigits,
        digit?_digitChar hd]
      have : ¬ max < n / 10 * 10 + n % 10 := by omega
      simp only [this, if_false, readDigits]
      congr 1
      omega

/-- The written digits of a number do not begin with a sign. -/
theorem toDigits_ne_sign {n : Nat} {c : Char} {cs : List Char}
    (h : Nat.toDigits 10 n = c :: cs) : c ≠ '+' ∧ c ≠ '-' := by
  have hc : c.isDigit := by
    have hm : c ∈ Nat.toDigits 10 n := by
      rw [h]
      exact List.mem_cons_self
    exact Nat.isDigit_of_mem_toDigits (by decide) (by decide) hm
  constructor <;> rintro rfl <;> exact absurd hc (by decide)

/-- The written form of a number in range reads back as that number. -/
theorem readNat_toDigits {max n : Nat} (h : n ≤ max) :
    readNat 10 max (Nat.toDigits 10 n) = .ok n := by
  have hr := readDigits_toDigits h
  cases hd : Nat.toDigits 10 n with
  | nil => exact absurd hd Nat.toDigits_ne_nil
  | cons c cs =>
    rw [hd] at hr
    have hs := (toDigits_ne_sign hd).1
    unfold readNat
    split <;> simp_all

end Numeral

end SettingsArchive
