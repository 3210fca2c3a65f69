import SettingsArchive.Calendar

/-!
# Dates and days

A day gives a date that the calendar has, and the date gives the day again.

The guess of the year is at most one year off since a year is as long as the
mean year but for a few days: `yearOfDay_spec` has the arithmetic.
-/

namespace SettingsArchive.Date

/-- The year of a day has begun, and the next one has not. -/
theorem yearOfDay_spec (day : Int) :
    yearStart (yearOfDay day) ≤ day ∧ day < yearStart (yearOfDay day + 1) := by
  unfold yearOfDay
  simp only
  split
  · rename_i h
    rw [Int.sub_add_cancel]
    refine ⟨?_, h⟩
    unfold yearStart
    omega
  · split
    · rename_i h
      refine ⟨h, ?_⟩
      unfold yearStart
      omega
    · rename_i h k
      omega

/-- The days of some months together. -/
def daysOf (lengths : List Nat) : Nat :=
  lengths.foldr Nat.add 0

theorem daysOf_cons (length : Nat) (lengths : List Nat) :
    daysOf (length :: lengths) = length + daysOf lengths :=
  rfl

/-- The months of a year have the days of the year. -/
theorem yearStart_succ (year : Int) :
    yearStart (year + 1) = yearStart year + daysOf (monthLengths year) := by
  have hdays : (daysOf (monthLengths year) : Int) =
      if isLeapYear year then 366 else 365 := by
    unfold monthLengths
    cases isLeapYear year with
    | true => rfl
    | false => rfl
  have hleap : isLeapYear year ↔
      year % 4 = 0 ∧ (year % 100 ≠ 0 ∨ year % 400 = 0) := by
    simp [isLeapYear]
  rw [hdays]
  unfold yearStart
  split
  · rename_i h
    rw [hleap] at h
    omega
  · rename_i h
    rw [hleap] at h
    omega

/-- A day within some months lies in one of them. -/
theorem monthAndDay_spec (month : Nat) (lengths : List Nat) (day : Nat)
    (h : day < daysOf lengths) :
    ∃ k, k < lengths.length ∧ daysOf (lengths.take k) ≤ day ∧
      day - daysOf (lengths.take k) < lengths.getD k 0 ∧
      monthAndDay month lengths day =
        (month + k, day - daysOf (lengths.take k) + 1) := by
  induction lengths generalizing month day with
  | nil => exact absurd h (Nat.not_lt_zero day)
  | cons length lengths ih =>
    rw [daysOf_cons] at h
    rw [monthAndDay]
    split
    · rename_i hlt
      exact ⟨0, by simp, Nat.zero_le _, by simpa [daysOf] using hlt, rfl⟩
    · rename_i hge
      obtain ⟨k, hk, hle, hlt, heq⟩ := ih (month + 1) (day - length) (by omega)
      refine ⟨k + 1, by simpa using hk, ?_, ?_, ?_⟩
      · rw [List.take_succ_cons, daysOf_cons]
        omega
      · rw [List.take_succ_cons, daysOf_cons, List.getD_cons_succ]
        omega
      · rw [heq, List.take_succ_cons, daysOf_cons]
        apply Prod.ext
        · show month + 1 + k = month + (k + 1)
          omega
        · show day - length - daysOf (lengths.take k) + 1 = _
          omega

/-- A day gives a date of the calendar, and the date gives the day again. -/
theorem ofDayNumber_spec (day : Int) :
    (ofDayNumber day).isValid ∧ (ofDayNumber day).dayNumber = day := by
  obtain ⟨hle, hlt⟩ := yearOfDay_spec day
  rw [yearStart_succ] at hlt
  obtain ⟨k, hk, hbefore, hday, heq⟩ := monthAndDay_spec 1
    (monthLengths (yearOfDay day)) (day - yearStart (yearOfDay day)).toNat
    (by omega)
  have hlength : (monthLengths (yearOfDay day)).length = 12 := rfl
  have hdate : ofDayNumber day = ⟨yearOfDay day, 1 + k,
      (day - yearStart (yearOfDay day)).toNat -
        daysOf ((monthLengths (yearOfDay day)).take k) + 1⟩ := by
    rw [ofDayNumber, heq]
  rw [hdate]
  constructor
  · simp only [isValid, Nat.add_sub_cancel_left, Bool.and_eq_true,
      decide_eq_true_eq]
    omega
  · simp only [dayNumber, Nat.add_sub_cancel_left]
    show yearStart (yearOfDay day) +
      (daysOf ((monthLengths (yearOfDay day)).take k) : Nat) + _ - 1 = day
    omega

end SettingsArchive.Date
