import Mathlib.Data.List.TakeDrop
import SettingsArchive.Numeral
import SettingsArchive.Text.Blank

/-!
# Numbers read back

Numbers of writes and whole settings are written with decimal digits, and read
back where they are in range.  Readers take the characters of a class up to the
first other one, which is what `Text.span_append_rest` is about.
-/

namespace SettingsArchive

namespace Text

theorem isBlank_of_isDigit {c : Char} (h : c.isDigit) : isBlank c = false := by
  have hrange : 48 ≤ c.toNat ∧ c.toNat ≤ 57 := by
    simpa [Char.isDigit, UInt32.le_iff_toNat_le] using h
  simp only [isBlank, Bool.or_eq_false_iff, Bool.and_eq_false_iff,
    decide_eq_false_iff_not, beq_eq_false_iff_ne]
  omega

/-- A sign and digits hold no blank. -/
theorem trim_of_digits {cs : List Char}
    (h : ∀ c ∈ cs, c = '-' ∨ c.isDigit) : trim cs = cs := by
  apply trim_of_noBlank
  intro c hc
  rcases h c hc with rfl | hd
  · decide
  · exact isBlank_of_isDigit hd

section Taken

variable {p : Char → Bool} {cs rest : List Char} (hcs : ∀ c ∈ cs, p c)
  (hrest : ∀ c ∈ rest.head?, p c = false)

include hcs hrest

/-- Characters of a class are taken up to the first other one. -/
theorem takeWhile_append_rest : (cs ++ rest).takeWhile p = cs := by
  rw [List.takeWhile_append_of_pos hcs]
  cases rest with
  | nil => simp
  | cons c rest =>
    rw [List.takeWhile_cons_of_neg (by simp [hrest c rfl]), List.append_nil]

theorem dropWhile_append_rest : (cs ++ rest).dropWhile p = rest := by
  rw [List.dropWhile_append_of_pos hcs]
  cases rest with
  | nil => rfl
  | cons c rest => rw [List.dropWhile_cons_of_neg (by simp [hrest c rfl])]

theorem span_append_rest : (cs ++ rest).span p = (cs, rest) := by
  rw [List.span_eq_takeWhile_dropWhile, takeWhile_append_rest hcs hrest,
    dropWhile_append_rest hcs hrest]

end Taken

end Text

namespace Numeral

theorem isDigit_of_mem_toDigits {n : Nat} {c : Char}
    (h : c ∈ Nat.toDigits 10 n) : c.isDigit :=
  Nat.isDigit_of_mem_toDigits (by decide) (by decide) h

/-- The characters of a whole number. -/
theorem toList_toString_int (n : Int) :
    (toString n).toList =
      if 0 ≤ n then Nat.toDigits 10 n.toNat
      else '-' :: Nat.toDigits 10 (-n).toNat := by
  rw [Int.toString_eq_repr, Int.repr_eq_if]
  split
  · rw [Nat.toList_repr]
  · rw [String.toList_append, Nat.toList_repr]
    rfl

/-- Digits in range read as a whole number that is not negative. -/
theorem readInt_toDigits {max n : Nat} (h : n ≤ max) :
    readInt max (Nat.toDigits 10 n) = .ok n := by
  have hread := readNat_toDigits h
  cases hd : Nat.toDigits 10 n with
  | nil => exact absurd hd Nat.toDigits_ne_nil
  | cons c cs =>
    have hsign := (toDigits_ne_sign hd).2
    rw [hd] at hread
    unfold readInt
    split
    · simp_all
    · simp_all
    · rw [hread]
      rfl

/-- Digits in range behind a sign read as a negative whole number. -/
theorem readInt_neg_toDigits {max n : Nat} (h : n ≤ max + 1) :
    readInt max ('-' :: Nat.toDigits 10 n) = .ok (-(n : Int)) := by
  have hread := readDigits_toDigits h
  unfold readInt
  split
  · rename_i heq
    exact absurd (List.cons.inj heq).2 Nat.toDigits_ne_nil
  · rename_i cs _ heq
    obtain rfl := (List.cons.inj heq).2
    rw [hread]
  · rename_i _ hne
    exact absurd rfl (hne _)

/-- A signed number of sixty-four bits reads back. -/
theorem readInt64_toString (n : Int64) :
    readInt64 (toString n.toInt).toList = .ok n := by
  have hlt := n.toInt_lt
  have hle := n.le_toInt
  have hread : readInt maxInt64 (toString n.toInt).toList = .ok n.toInt := by
    rw [toList_toString_int]
    split
    · rw [readInt_toDigits (by unfold maxInt64; omega)]
      congr 1
      omega
    · rw [readInt_neg_toDigits (by unfold maxInt64; omega)]
      congr 1
      omega
  rw [readInt64, hread]
  show Except.ok (Int64.ofInt n.toInt) = _
  rw [Int64.ofInt_toInt]

theorem trim_toString_int (n : Int) :
    Text.trim (toString n).toList = (toString n).toList := by
  apply Text.trim_of_digits
  intro c hc
  rw [toList_toString_int] at hc
  split at hc
  · exact Or.inr (isDigit_of_mem_toDigits hc)
  · rcases List.mem_cons.1 hc with rfl | hc
    · exact Or.inl rfl
    · exact Or.inr (isDigit_of_mem_toDigits hc)

end Numeral

end SettingsArchive
