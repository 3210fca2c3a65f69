import Mathlib.Algebra.Ring.Nat
import SettingsArchive.Instant.Reader
import SettingsArchive.Proofs.Calendar
import SettingsArchive.Proofs.Numeral

/-!
# Instants read back

The written form of an instant of a year of four digits is read, whatever its
fraction and also when it is a leap second.  The written form of any other year
begins with a sign, which reading refuses (`readRfc3339_of_signed`).

A leap second that ends no minute is written as the second behind it, which is
what reads back: `shown` is what the written form of an instant stands for
(`readRfc3339_rfc3339Chars_eq_ok_iff`).  It is the instant itself unless that is
such a leap second (`shown_eq_self_iff`).
-/

namespace SettingsArchive.Instant

/-! ## Digits -/

theorem isDigit_of_mem_padded {width n : Nat} {c : Char}
    (h : c ∈ padded width n) : c.isDigit := by
  rcases List.mem_append.1 h with h | h
  · rw [List.eq_of_mem_replicate h]
    decide
  · exact Nat.isDigit_of_mem_toDigits (by decide) (by decide) h

theorem length_padded {width n : Nat} (hw : 0 < width) (h : n < 10 ^ width) :
    (padded width n).length = width := by
  have := (Nat.length_toDigits_le_iff (b := 10) (by decide) hw).2 h
  simp only [padded, List.length_append, List.length_replicate]
  omega

theorem ofDigitChars_padded (width n : Nat) :
    Nat.ofDigitChars 10 (padded width n) 0 = n := by
  rw [padded]
  simp only [Nat.ofDigitChars_append, Nat.ofDigitChars_replicate_zero,
    Nat.mul_zero, Nat.ofDigitChars_ten_toDigits]

/-- As many digits as are asked for are read. -/
theorem readFixed_append {ds : List Char} (h : ∀ c ∈ ds, c.isDigit)
    (value : Nat) (rest : List Char) :
    readFixed ds.length value (ds ++ rest) =
      .ok (Nat.ofDigitChars 10 ds value, rest) := by
  induction ds generalizing value with
  | nil => rw [Nat.ofDigitChars_nil]; rfl
  | cons c ds ih =>
    have hvalue : value * 10 + (c.toNat - 48) =
        10 * value + (c.toNat - '0'.toNat) := by
      rw [Nat.mul_comm]
      rfl
    rw [List.length_cons, List.cons_append, readFixed,
      if_pos (h c List.mem_cons_self),
      ih (fun d hd => h d (List.mem_cons_of_mem _ hd)), Nat.ofDigitChars_cons,
      hvalue]

theorem readFixed_padded {width n : Nat} (hw : 0 < width) (h : n < 10 ^ width)
    (rest : List Char) :
    readFixed width 0 (padded width n ++ rest) = .ok (n, rest) := by
  have hread := readFixed_append
    (fun c (hc : c ∈ padded width n) => isDigit_of_mem_padded hc) 0 rest
  rw [length_padded hw h, ofDigitChars_padded] at hread
  exact hread

theorem readFixed_pair {n : Nat} (h : n < 100) (rest : List Char) :
    readFixed 2 0 (padded 2 n ++ rest) = .ok (n, rest) :=
  readFixed_padded (by decide) h rest

theorem le_length_padded (width n : Nat) : width ≤ (padded width n).length := by
  simp only [padded, List.length_append, List.length_replicate]
  omega

theorem readMark_cons {marks : List Char} {c : Char} (h : c ∈ marks)
    (rest : List Char) : readMark marks (c :: rest) = .ok rest := by
  rw [readMark, if_pos h]

/-! ## The parts of an instant -/

/-- A date of a year of four digits reads back. -/
theorem readDate_dateChars {d : Date} (hvalid : d.isValid)
    (hyear : 0 ≤ d.year ∧ d.year ≤ 9999) (rest : List Char) :
    readDate (dateChars d ++ rest) = .ok (d, rest) := by
  have hmonth : d.month < 100 ∧ d.day < 100 := by
    simp only [Date.isValid, Bool.and_eq_true, decide_eq_true_eq] at hvalid
    have hdays : ∀ k, (Date.monthLengths d.year).getD k 0 ≤ 31 := by
      intro k
      have hall : ∀ b : Bool, ∀ n ∈ [31, if b then 29 else 28, 31, 30, 31, 30,
          31, 31, 30, 31, 30, 31], n ≤ 31 := by decide
      rw [List.getD_eq_getElem?_getD]
      cases hk : (Date.monthLengths d.year)[k]? with
      | none => exact Nat.zero_le _
      | some n => exact hall _ n (List.mem_of_getElem? hk)
    have := hdays (d.month - 1)
    omega
  have hnat : d.year.toNat < 10 ^ 4 := by omega
  have hcast : (d.year.toNat : Int) = d.year := Int.toNat_of_nonneg hyear.1
  have hchars : dateChars d ++ rest = padded 4 d.year.toNat ++ '-' ::
      (padded 2 d.month ++ '-' :: (padded 2 d.day ++ rest)) := by
    simp [dateChars, yearChars, hyear]
  simp only [readDate, hchars, readFixed_padded (by decide) hnat,
    readFixed_pair hmonth.1, readFixed_pair hmonth.2, bind, Except.bind,
    readMark_cons (List.mem_singleton.2 rfl)]
  rw [hcast]
  simp [hvalid]
  rfl

/-- Digits of a fraction are read up to the end of the digits. -/
theorem readFraction_padded {width n : Nat} (hw : 0 < width) (hle : width ≤ 9)
    (h : n < 10 ^ width) {rest : List Char}
    (hrest : ∀ c ∈ rest.head?, c.isDigit = false) :
    readFraction ('.' :: padded width n ++ rest) =
      .ok (n * 10 ^ (9 - width), rest) := by
  have hlength := length_padded hw h
  have hdigits : ∀ c ∈ padded width n, c.isDigit :=
    fun c hc => isDigit_of_mem_padded hc
  have hspan := Text.span_append_rest hdigits hrest
  have hne : (padded width n).isEmpty = false := by
    rw [List.isEmpty_eq_false_iff]
    intro hnil
    rw [hnil] at hlength
    exact absurd hlength (by simp; omega)
  have hkept : (padded width n).take 9 = padded width n :=
    List.take_of_length_le (by omega)
  rw [List.cons_append, readFraction, hspan]
  simp only [hne, hkept, ofDigitChars_padded, hlength, Bool.false_eq_true,
    if_false]
  rfl

/-- The fraction of a second reads back. -/
theorem readFraction_fractionChars {nano : Nat} (h : nano < 1000000000) :
    readFraction (fractionChars nano ++ ['Z']) = .ok (nano, ['Z']) := by
  have hrest : ∀ c ∈ ['Z'].head?, c.isDigit = false := by
    intro c hc
    obtain rfl : 'Z' = c := Option.some.inj hc
    rfl
  unfold fractionChars
  split
  · rename_i hzero
    rw [hzero]
    rfl
  · split
    · rw [readFraction_padded (by decide) (by decide) (by omega) hrest]
      congr 2
      omega
    · split
      · rw [readFraction_padded (by decide) (by decide) (by omega) hrest]
        congr 2
        omega
      · rw [readFraction_padded (by decide) (by decide) (by omega) hrest]
        congr 2
        omega

/-- The second of the day. -/
def secondOfDay (t : Instant) : Nat :=
  (t.second % 86400).toNat

/-- A leap second ends a minute. -/
def EndsMinute (t : Instant) : Prop :=
  1000000000 ≤ t.nano → t.second % 60 = 59

instance (t : Instant) : Decidable t.EndsMinute :=
  inferInstanceAs (Decidable (_ → _))

/-- What the written form of an instant stands for.  A leap second that ends no
minute is shown as the second behind it. -/
def shown (t : Instant) : Instant :=
  if t.EndsMinute then t
  else { second := t.second + 1
         nano := t.nano - 1000000000
         nano_lt := Nat.lt_of_le_of_lt (Nat.sub_le _ _) t.nano_lt }

theorem shown_of_endsMinute {t : Instant} (h : t.EndsMinute) : t.shown = t :=
  if_pos h

/-- The instant behind a leap second that ends no minute. -/
theorem shown_of_not_endsMinute {t : Instant} (h : ¬ t.EndsMinute) :
    1000000000 ≤ t.nano ∧ t.second % 60 ≠ 59 ∧
      t.shown.second = t.second + 1 ∧ t.shown.nano = t.nano - 1000000000 := by
  have hshown : t.shown = _ := if_neg h
  rw [hshown]
  obtain ⟨hnano, hsecond⟩ := Classical.not_imp.1 h
  exact ⟨hnano, hsecond, rfl, rfl⟩

theorem endsMinute_shown (t : Instant) : t.shown.EndsMinute := by
  by_cases h : t.EndsMinute
  · rwa [shown_of_endsMinute h]
  · obtain ⟨-, -, -, hnano⟩ := shown_of_not_endsMinute h
    have hlt := t.nano_lt
    intro hleap
    omega

@[simp] theorem shown_shown (t : Instant) : t.shown.shown = t.shown :=
  shown_of_endsMinute t.endsMinute_shown

theorem shown_eq_self_iff {t : Instant} : t.shown = t ↔ t.EndsMinute :=
  ⟨fun h => h ▸ t.endsMinute_shown, shown_of_endsMinute⟩

/-- The clock shows a leap second that ends a minute as the sixtieth. -/
theorem clock?_shown (t : Instant) :
    clock? (t.secondOfDay / 3600) (t.secondOfDay / 60 % 60)
        (t.secondOfDay % 60 + t.nano / 1000000000) t.shownNano =
      some (t.shown.secondOfDay, t.shown.nano) := by
  have hnano := t.nano_lt
  have hday : t.secondOfDay < 86400 := by
    unfold secondOfDay
    omega
  have hminute : (t.secondOfDay % 60 : Int) = t.second % 60 := by
    unfold secondOfDay
    omega
  by_cases h : t.EndsMinute
  · rw [shown_of_endsMinute h]
    unfold EndsMinute at h
    unfold clock? shownNano
    rw [if_pos (by omega)]
    split
    · congr 2 <;> omega
    · congr 2 <;> omega
  · obtain ⟨hleap, hsecond, hshown, hrest⟩ := shown_of_not_endsMinute h
    have hnext : t.shown.secondOfDay = t.secondOfDay + 1 := by
      unfold secondOfDay at *
      omega
    have hclock : t.secondOfDay / 3600 * 3600 + t.secondOfDay / 60 % 60 * 60 +
        (t.secondOfDay % 60 + t.nano / 1000000000) = t.secondOfDay + 1 := by omega
    have hfraction : t.nano % 1000000000 = t.nano - 1000000000 := by omega
    rw [hnext, hrest]
    unfold clock? shownNano
    rw [if_pos (by omega), if_neg (by omega), hclock, hfraction]

/-- The time of day reads back. -/
theorem readClock_clockChars (t : Instant) :
    readClock (t.clockChars ++ (fractionChars t.shownNano ++ ['Z'])) =
      .ok ((t.shown.secondOfDay, t.shown.nano), ['Z']) := by
  have hnano := t.nano_lt
  have hday : t.secondOfDay < 86400 := by
    unfold secondOfDay
    omega
  have hshown : t.shownNano < 1000000000 := by
    unfold shownNano
    omega
  have hchars : t.clockChars ++ (fractionChars t.shownNano ++ ['Z']) =
      padded 2 (t.secondOfDay / 3600) ++ ':' ::
        (padded 2 (t.secondOfDay / 60 % 60) ++ ':' ::
          (padded 2 (t.secondOfDay % 60 + t.nano / 1000000000) ++
            (fractionChars t.shownNano ++ ['Z']))) := by
    simp [clockChars, secondOfDay]
  rw [hchars]
  simp only [readClock, bind, Except.bind,
    readFixed_pair (show t.secondOfDay / 3600 < 100 by omega),
    readFixed_pair (show t.secondOfDay / 60 % 60 < 100 by omega),
    readFixed_pair
      (show t.secondOfDay % 60 + t.nano / 1000000000 < 100 by omega),
    readMark_cons (List.mem_singleton.2 rfl), readFraction_fractionChars hshown,
    clock?_shown]
  rfl

/-! ## Instants -/

theorem length_le_utf8ByteSize (cs : List Char) :
    cs.length ≤ (String.ofList cs).utf8ByteSize := by
  rw [← String.size_toByteArray, String.toByteArray_ofList]
  induction cs with
  | nil => exact Nat.zero_le _
  | cons c cs ih =>
    rw [List.utf8Encode_cons, ByteArray.size_append, List.length_cons,
      List.utf8Encode_singleton, List.size_toByteArray]
    have hsize : 0 < (String.utf8EncodeChar c).length := by
      unfold String.utf8EncodeChar
      simp only
      split
      · simp
      · split
        · simp
        · split <;> simp
    omega

theorem length_yearChars (year : Int) : 4 ≤ (yearChars year).length := by
  unfold yearChars
  split
  · exact le_length_padded 4 _
  · exact Nat.le_succ_of_le (le_length_padded 4 _)

theorem length_rfc3339Chars (t : Instant) : 19 ≤ t.rfc3339Chars.length := by
  have hpadded := le_length_padded
  simp only [rfc3339Chars, dateChars, clockChars, List.length_append,
    List.length_cons, List.length_nil]
  have hyears := length_yearChars t.date.year
  have hmonths := hpadded 2 t.date.month
  have hdays := hpadded 2 t.date.day
  have hhours := hpadded 2 ((t.second % 86400).toNat / 3600)
  have hminutes := hpadded 2 ((t.second % 86400).toNat / 60 % 60)
  have hseconds := hpadded 2
    ((t.second % 86400).toNat % 60 + t.nano / 1000000000)
  omega

/-- The text of an instant is never too short to be read. -/
theorem le_utf8ByteSize_rfc3339Chars (t : Instant) :
    ¬ (String.ofList t.rfc3339Chars).utf8ByteSize < 19 := by
  have hbytes := length_le_utf8ByteSize t.rfc3339Chars
  have hlength := t.length_rfc3339Chars
  omega

/-- The written form stands for an instant of the same day. -/
theorem date_shown (t : Instant) : t.shown.date = t.date := by
  by_cases h : t.EndsMinute
  · rw [shown_of_endsMinute h]
  · obtain ⟨-, hsecond, hshown, -⟩ := shown_of_not_endsMinute h
    have hday : (t.second + 1) / 86400 = t.second / 86400 := by omega
    rw [date, date, hshown, hday]

/-- The date and the time of day of an instant give the instant. -/
theorem ofLocal?_shown {t : Instant} (h : t.EndsMinute) :
    ofLocal? t.date (t.secondOfDay, t.nano) 0 = some t := by
  obtain ⟨-, hday⟩ := Date.ofDayNumber_spec (t.second / 86400 + Date.epochDay)
  have hday : t.date.dayNumber = t.second / 86400 + Date.epochDay := hday
  have hsecond : (t.date.dayNumber - Date.epochDay) * 86400 +
      (t.secondOfDay : Int) - 0 = t.second := by
    rw [hday]
    unfold secondOfDay
    omega
  unfold ofLocal? ofUnix?
  simp only [hsecond]
  rw [dif_pos ⟨t.nano_lt, h⟩]

/-- An instant whose year has four digits and no sign. -/
def HasPlainYear (t : Instant) : Prop :=
  0 ≤ t.date.year ∧ t.date.year ≤ 9999

instance (t : Instant) : Decidable t.HasPlainYear :=
  inferInstanceAs (Decidable (_ ∧ _))

theorem hasPlainYear_shown {t : Instant} :
    t.shown.HasPlainYear ↔ t.HasPlainYear := by
  rw [HasPlainYear, date_shown, HasPlainYear]

/-- The written form of an instant of a year of four digits is read as what it
stands for. -/
theorem readRfc3339_rfc3339Chars (t : Instant)
    (hyear : t.HasPlainYear) :
    readRfc3339 t.rfc3339Chars = .ok t.shown := by
  obtain ⟨hvalid, -⟩ := Date.ofDayNumber_spec (t.second / 86400 + Date.epochDay)
  have hchars : t.rfc3339Chars = dateChars t.date ++ ('T' ::
      (t.clockChars ++ (fractionChars t.shownNano ++ ['Z']))) := by
    simp [rfc3339Chars]
  have hdate := readDate_dateChars hvalid hyear
    ('T' :: (t.clockChars ++ (fractionChars t.shownNano ++ ['Z'])))
  have hmark : readMark ['T', 't', ' '] ('T' ::
      (t.clockChars ++ (fractionChars t.shownNano ++ ['Z']))) =
        .ok (t.clockChars ++ (fractionChars t.shownNano ++ ['Z'])) :=
    readMark_cons List.mem_cons_self _
  have hoffset : readOffset ['Z'] = .ok (0, []) := rfl
  unfold readRfc3339
  rw [if_neg t.le_utf8ByteSize_rfc3339Chars, hchars]
  have hdate : readDate (dateChars t.date ++ 'T' ::
      (t.clockChars ++ (fractionChars t.shownNano ++ ['Z']))) =
        .ok (t.date, _) := hdate
  have hlocal : ofLocal? t.date (t.shown.secondOfDay, t.shown.nano) 0 =
      some t.shown := by
    rw [← date_shown]
    exact ofLocal?_shown t.endsMinute_shown
  simp only [bind, Except.bind, pure, Except.pure, hdate, hmark,
    readClock_clockChars, hoffset, hlocal]
  rfl

/-- The sign of a year is refused. -/
theorem readRfc3339_of_signed (t : Instant) (h : ¬ t.HasPlainYear) :
    readRfc3339 t.rfc3339Chars = .error .invalid := by
  have hyear : yearChars t.date.year =
      (if t.date.year < 0 then '-' else '+') ::
        padded 4 t.date.year.natAbs := if_neg h
  have hsign : (if t.date.year < 0 then '-' else '+').isDigit = false := by
    split <;> rfl
  have hread (cs : List Char) :
      readDate (dateChars t.date ++ cs) = .error .invalid := by
    simp [dateChars, hyear, readDate, readFixed, hsign, bind, Except.bind]
  unfold readRfc3339
  rw [if_neg t.le_utf8ByteSize_rfc3339Chars]
  simp only [rfc3339Chars, List.append_assoc, hread, bind, Except.bind]

/-- The written form of an instant is read if its year has four digits and no
sign, as what it stands for. -/
theorem readRfc3339_rfc3339Chars_eq_ok_iff {t u : Instant} :
    readRfc3339 t.rfc3339Chars = .ok u ↔ t.HasPlainYear ∧ t.shown = u := by
  by_cases h : t.HasPlainYear
  · rw [t.readRfc3339_rfc3339Chars h]
    simp [h]
  · rw [t.readRfc3339_of_signed h]
    simp [h]

/-- What is shown is written in the same way. -/
theorem rfc3339Chars_shown (t : Instant) :
    t.shown.rfc3339Chars = t.rfc3339Chars := by
  by_cases h : t.EndsMinute
  · rw [shown_of_endsMinute h]
  · obtain ⟨hleap, hsecond, hshown, hnano⟩ := shown_of_not_endsMinute h
    have hlt := t.nano_lt
    have hclock : t.shown.clockChars = t.clockChars := by
      unfold clockChars
      rw [hshown, hnano]
      have hhour : ((t.second + 1) % 86400).toNat / 3600 =
          (t.second % 86400).toNat / 3600 := by omega
      have hminute : ((t.second + 1) % 86400).toNat / 60 % 60 =
          (t.second % 86400).toNat / 60 % 60 := by omega
      have hclock : ((t.second + 1) % 86400).toNat % 60 +
          (t.nano - 1000000000) / 1000000000 =
            (t.second % 86400).toNat % 60 + t.nano / 1000000000 := by omega
      simp only [hhour, hminute, hclock]
    have hfraction : t.shown.shownNano = t.shownNano := by
      unfold shownNano
      omega
    rw [rfc3339Chars, rfc3339Chars, date_shown, hclock, hfraction]

end SettingsArchive.Instant
