import SettingsArchive.Binary64.Layout
import SettingsArchive.Proofs.Binary64.Rounding
import SettingsArchive.Proofs.Numeral

/-!
# Numbers read back

The text of a number in a database reads back as the number, bit for bit
(`read?_plainChars`).  A NaN reads back as the one NaN that reading produces
(`read?_plainChars_of_isNaN`).
-/

namespace SettingsArchive.Binary64

/-! ## Digits -/

/-- Zeros behind the digits count as digits. -/
theorem length_toDigits_mul_pow {n : Nat} (hn : 0 < n) (k : Nat) :
    (Nat.toDigits 10 (n * 10 ^ k)).length = (Nat.toDigits 10 n).length + k := by
  have hlong : 0 < (Nat.toDigits 10 n).length :=
    List.length_pos_iff.2 Nat.toDigits_ne_nil
  have hbound (j : Nat) (hj : 0 < j) :
      (Nat.toDigits 10 (n * 10 ^ k)).length ≤ j + k ↔
        (Nat.toDigits 10 n).length ≤ j := by
    rw [Nat.length_toDigits_le_iff (by decide) (by omega),
      Nat.length_toDigits_le_iff (by decide) hj, Nat.pow_add,
      Nat.mul_lt_mul_right (Nat.pow_pos (by decide))]
  have hle := (hbound _ hlong).2 le_rfl
  by_contra hne
  obtain ⟨j, hj⟩ : ∃ j, (Nat.toDigits 10 n).length = j + 1 :=
    ⟨_, (Nat.succ_pred_eq_of_pos hlong).symm⟩
  rw [hj] at hle hne
  by_cases hzero : j = 0
  · have hlt : n * 10 ^ k < 10 ^ k := by
      have hk : 0 < k := by
        have : 0 < (Nat.toDigits 10 (n * 10 ^ k)).length :=
          List.length_pos_iff.2 Nat.toDigits_ne_nil
        omega
      exact (Nat.length_toDigits_le_iff (b := 10) (by decide) hk).1 (by omega)
    have := Nat.le_mul_of_pos_left (10 ^ k) hn
    omega
  · have := (hbound j (by omega)).1 (by omega)
    omega

/-- Zeros behind the digits stand for a power of ten. -/
theorem ofDecimal_mul_pow (n k : Nat) :
    ofDecimal (n * 10 ^ k) 0 = ofDecimal n k := by
  by_cases hn : n = 0
  · simp [hn, ofDecimal]
  · have hlength := length_toDigits_mul_pow (Nat.pos_of_ne_zero hn) k
    have hne : n * 10 ^ k ≠ 0 := by positivity
    have hzero : (-(k : Int)).toNat = 0 := by omega
    unfold ofDecimal
    simp only [hlength, hne, hn, false_or, Int.toNat_natCast, hzero, neg_zero,
      Int.toNat_zero, Nat.pow_eq, Nat.pow_zero, Nat.mul_one]
    push_cast
    rw [show ((Nat.toDigits 10 n).length : Int) + k - 1 + 0 =
      (Nat.toDigits 10 n).length - 1 + k by ring]

/-! ## Magnitudes -/

/-- Digits read as the decimal number they write. -/
theorem readMagnitude?_digits {ds : List Char} (hne : ds ≠ [])
    (hdigits : ∀ c ∈ ds, c.isDigit) :
    readMagnitude? ds = some (ofDecimal (Nat.ofDigitChars 10 ds 0) 0) := by
  have hspan : (ds ++ []).span Char.isDigit = (ds, []) :=
    Text.span_append_rest hdigits (by simp)
  rw [List.append_nil] at hspan
  simp only [readMagnitude?, spanDigits, hspan]
  simp [hne, readExponent?]

/-- Digits with a point read as the decimal number they write. -/
theorem readMagnitude?_point {ws fs : List Char} (hne : ws ≠ [])
    (hws : ∀ c ∈ ws, c.isDigit) (hfs : ∀ c ∈ fs, c.isDigit) :
    readMagnitude? (ws ++ '.' :: fs) =
      some (ofDecimal (Nat.ofDigitChars 10 (ws ++ fs) 0) (-fs.length)) := by
  have hspan : (ws ++ '.' :: fs).span Char.isDigit = (ws, '.' :: fs) :=
    Text.span_append_rest hws (by simp)
  have hspan' : (fs ++ []).span Char.isDigit = (fs, []) :=
    Text.span_append_rest hfs (by simp)
  rw [List.append_nil] at hspan'
  simp only [readMagnitude?, spanDigits, hspan, hspan']
  simp [hne, readExponent?]

theorem isDigit_of_mem_zeros {k : Nat} {c : Char}
    (h : c ∈ List.replicate k '0') : c.isDigit := by
  rw [List.eq_of_mem_replicate h]
  decide

section Positional

variable {n : Nat} {ds : List Char} (hne : ds ≠ [])
  (hdigits : ∀ c ∈ ds, c.isDigit) (hvalue : Nat.ofDigitChars 10 ds 0 = n)

include hne hdigits hvalue

/-- Digits with zeros behind them read back. -/
theorem readMagnitude?_zeros_behind (k : Nat) :
    readMagnitude? (ds ++ List.replicate k '0') = some (ofDecimal n k) := by
  have hall : ∀ c ∈ ds ++ List.replicate k '0', c.isDigit :=
    List.forall_mem_append.2 ⟨hdigits, fun c hc => isDigit_of_mem_zeros hc⟩
  have hshown : Nat.ofDigitChars 10 (ds ++ List.replicate k '0') 0 =
      n * 10 ^ k := by
    rw [Nat.ofDigitChars_append, Nat.ofDigitChars_replicate_zero, hvalue,
      Nat.mul_comm]
  rw [readMagnitude?_digits (by simp [hne]) hall, hshown, ofDecimal_mul_pow]

/-- Digits with a point among them read back. -/
theorem readMagnitude?_point_among {whole : Nat} (hwhole : 0 < whole) :
    readMagnitude? (ds.take whole ++ '.' :: ds.drop whole) =
      some (ofDecimal n (-(ds.length - whole : Nat))) := by
  rw [readMagnitude?_point (by simp [hne]; omega)
    (fun c hc => hdigits c (List.mem_of_mem_take hc))
    (fun c hc => hdigits c (List.mem_of_mem_drop hc)),
    List.take_append_drop, hvalue, List.length_drop]

omit hne in
/-- Digits with zeros between the point and them read back. -/
theorem readMagnitude?_zeros_before (k : Nat) :
    readMagnitude? ('0' :: '.' :: (List.replicate k '0' ++ ds)) =
      some (ofDecimal n (-(k + ds.length : Nat))) := by
  have hfraction : ∀ c ∈ List.replicate k '0' ++ ds, c.isDigit :=
    List.forall_mem_append.2 ⟨fun c hc => isDigit_of_mem_zeros hc, hdigits⟩
  have hread : readMagnitude? (['0'] ++ '.' :: (List.replicate k '0' ++ ds)) =
      _ := readMagnitude?_point (by simp) (by simp) hfraction
  have hshown : Nat.ofDigitChars 10 (['0'] ++ (List.replicate k '0' ++ ds)) 0 =
      n := by
    have hzero : Nat.ofDigitChars 10 ['0'] 0 = 0 := rfl
    rw [Nat.ofDigitChars_append, Nat.ofDigitChars_append,
      Nat.ofDigitChars_replicate_zero, hzero, Nat.mul_zero, hvalue]
  rw [hshown, List.length_append, List.length_replicate] at hread
  exact hread

end Positional

/-- A decimal number written without an exponent reads back. -/
theorem readMagnitude?_positionalText (d : Decimal) :
    readMagnitude?
        (positionalText plainLayout (Nat.toDigits 10 d.digits) d.exponent) =
      some d.toMagnitude := by
  have hdigits : ∀ c ∈ Nat.toDigits 10 d.digits, c.isDigit :=
    fun c hc => Numeral.isDigit_of_mem_toDigits hc
  have hne : Nat.toDigits 10 d.digits ≠ [] := Nat.toDigits_ne_nil
  have hvalue := Nat.ofDigitChars_ten_toDigits (n := d.digits)
  unfold positionalText Decimal.toMagnitude
  generalize Nat.toDigits 10 d.digits = ds at *
  dsimp only
  split
  · rename_i hexp
    obtain ⟨k, hk⟩ := Int.eq_ofNat_of_zero_le hexp
    have hread := readMagnitude?_zeros_behind hne hdigits hvalue k
    simpa [plainLayout, hk] using hread
  · split
    · have hread := readMagnitude?_point_among hne hdigits hvalue
        (show 0 < ((ds.length : Int) + d.exponent).toNat by omega)
      have hexp : (-((ds.length - ((ds.length : Int) + d.exponent).toNat :
          Nat) : Int)) = d.exponent := by omega
      rwa [hexp] at hread
    · have hread := readMagnitude?_zeros_before hdigits hvalue
        (-d.exponent - (ds.length : Int)).toNat
      have hexp : (-(((-d.exponent - (ds.length : Int)).toNat + ds.length :
          Nat) : Int)) = d.exponent := by omega
      rwa [hexp] at hread

/-- The text of a decimal number without an exponent begins with a digit. -/
theorem positionalText_eq_cons (n : Nat) (exponent : Int) :
    ∃ c cs, positionalText plainLayout (Nat.toDigits 10 n) exponent = c :: cs ∧
      c.isDigit := by
  cases hds : Nat.toDigits 10 n with
  | nil => exact absurd hds Nat.toDigits_ne_nil
  | cons c ds =>
    have hc : c.isDigit :=
      Numeral.isDigit_of_mem_toDigits (hds ▸ List.mem_cons_self)
    unfold positionalText
    dsimp only
    split
    · exact ⟨c, _, rfl, hc⟩
    · split
      · rename_i hlong
        obtain ⟨k, hk⟩ : ∃ k,
            (((c :: ds).length : Int) + exponent).toNat = k + 1 :=
          ⟨(((c :: ds).length : Int) + exponent).toNat - 1, by omega⟩
        rw [hk, List.take_succ_cons]
        exact ⟨c, _, rfl, hc⟩
      · exact ⟨'0', _, rfl, by decide⟩

/-- The text of a decimal number without an exponent holds digits and a
point. -/
theorem of_mem_positionalText {n : Nat} {exponent : Int} {c : Char}
    (h : c ∈ positionalText plainLayout (Nat.toDigits 10 n) exponent) :
    c = '.' ∨ c.isDigit := by
  have hdigits : ∀ d ∈ Nat.toDigits 10 n, d.isDigit :=
    fun d hd => Numeral.isDigit_of_mem_toDigits hd
  unfold positionalText at h
  dsimp only at h
  split at h
  · simp only [plainLayout, Bool.false_eq_true, if_false, List.append_nil,
      List.mem_append] at h
    rcases h with h | h
    · exact Or.inr (hdigits c h)
    · exact Or.inr (isDigit_of_mem_zeros h)
  · split at h
    · simp only [List.mem_append, List.mem_cons] at h
      rcases h with h | rfl | h
      · exact Or.inr (hdigits c (List.mem_of_mem_take h))
      · exact Or.inl rfl
      · exact Or.inr (hdigits c (List.mem_of_mem_drop h))
    · simp only [List.mem_append, List.mem_cons] at h
      rcases h with (rfl | rfl | h) | h
      · exact Or.inr (by decide)
      · exact Or.inl rfl
      · exact Or.inr (isDigit_of_mem_zeros h)
      · exact Or.inr (hdigits c h)

/-! ## Numbers -/

/-- The sign in front of a number. -/
def signChars (negative : Bool) : List Char :=
  if negative then ['-'] else []

theorem toLower_of_isDigit {c : Char} (h : c.isDigit) : c.toLower = c := by
  have hrange : c.val.toNat ≤ 57 := by
    simp only [Char.isDigit, Bool.and_eq_true, decide_eq_true_eq] at h
    exact UInt32.le_iff_toNat_le.1 h.2
  unfold Char.toLower
  rw [dif_neg]
  rintro ⟨hupper, -⟩
  have := UInt32.le_iff_toNat_le.1 hupper
  have hA : 'A'.val.toNat = 65 := rfl
  omega

/-- Behind a sign, text that begins with a digit is read as a magnitude. -/
theorem read?_of_isDigit (negative : Bool) {c : Char} (cs : List Char)
    (h : c.isDigit) :
    read? (signChars negative ++ c :: cs) =
      (readMagnitude? (c :: cs)).map (ofMagnitude negative) := by
  have hword (word : String)
      (hfirst : word.toList.head?.any Char.isDigit = false) :
      String.ofList ((c :: cs).map Char.toLower) ≠ word := by
    rintro rfl
    rw [String.toList_ofList, List.map_cons, toLower_of_isDigit h,
      List.head?_cons, Option.any_some, h] at hfirst
    exact Bool.noConfusion hfirst
  have hinf := hword "inf" (by decide)
  have hinfinity := hword "infinity" (by decide)
  have hnan := hword "nan" (by decide)
  cases negative with
  | true =>
    unfold read?
    simp only [signChars, if_true, List.singleton_append, hinf, hinfinity, hnan,
      or_self, if_false]
  | false =>
    unfold read?
    simp only [signChars, Bool.false_eq_true, if_false, List.nil_append]
    split
    · rename_i heq
      obtain rfl := (List.cons.inj heq).1
      exact absurd h (by decide)
    · rename_i heq
      obtain rfl := (List.cons.inj heq).1
      exact absurd h (by decide)
    · simp only [hinf, hinfinity, hnan, or_self, if_false]

/-- A number is made of its sign and its magnitude. -/
theorem ofMagnitude_magnitude (x : Binary64) :
    ofMagnitude x.isNegative x.magnitude = x := by
  obtain ⟨bits⟩ := x
  have hlt : bits.toNat < 2 * signBit := bits.toNat_lt
  have hbits : (if signBit ≤ bits.toNat then signBit + bits.toNat % signBit
      else bits.toNat % signBit) = bits.toNat := by
    unfold signBit at *
    split <;> omega
  simp only [ofMagnitude, isNegative, magnitude, decide_eq_true_eq, hbits,
    UInt64.ofNat_toNat]

/-- The text of a finite number. -/
theorem plainChars_of_finite {x : Binary64} (h : x.magnitude < infinity) :
    x.plainChars = signChars x.isNegative ++
      positionalText plainLayout
        (Nat.toDigits 10 (shortest .up x.magnitude).digits)
        (shortest .up x.magnitude).exponent := by
  have hnan : x.isNaN = false := decide_eq_false (by omega)
  have hinf : x.isInfinite = false := beq_false_of_ne h.ne
  simp only [plainChars, hnan, hinf, Bool.false_eq_true, if_false]
  rfl

/-- The text of an infinity. -/
theorem plainChars_of_infinite {x : Binary64} (h : x.magnitude = infinity) :
    x.plainChars = signChars x.isNegative ++ ['i', 'n', 'f'] := by
  have hnan : x.isNaN = false := decide_eq_false (by omega)
  have hinf : x.isInfinite = true := beq_iff_eq.2 h
  simp only [plainChars, hnan, hinf, Bool.false_eq_true, if_false, if_true]
  rfl

theorem read?_inf (negative : Bool) :
    read? (signChars negative ++ ['i', 'n', 'f']) =
      some (ofMagnitude negative infinity) := by
  cases negative with
  | true => rfl
  | false => rfl

/-- The text of a number reads back as the number. -/
theorem read?_plainChars {x : Binary64} (h : x.isNaN = false) :
    read? x.plainChars = some x := by
  have hle : x.magnitude ≤ infinity := by
    have := of_decide_eq_false h
    omega
  rcases hle.lt_or_eq with hfinite | hinfinite
  · have hread := readMagnitude?_positionalText (shortest .up x.magnitude)
    obtain ⟨c, cs, hchars, hc⟩ := positionalText_eq_cons
      (shortest .up x.magnitude).digits (shortest .up x.magnitude).exponent
    rw [plainChars_of_finite hfinite, hchars, read?_of_isDigit _ _ hc,
      ← hchars, hread, Option.map_some, toMagnitude_shortest _ hfinite,
      ofMagnitude_magnitude]
  · rw [plainChars_of_infinite hinfinite, read?_inf, ← hinfinite,
      ofMagnitude_magnitude]

/-- The text of a NaN reads back as the NaN that reading produces. -/
theorem read?_plainChars_of_isNaN {x : Binary64} (h : x.isNaN) :
    read? x.plainChars = some nan := by
  rw [plainChars, if_pos h]
  rfl

/-- The text of a number holds no blank. -/
theorem trim_plainChars (x : Binary64) :
    Text.trim x.plainChars = x.plainChars := by
  have hsign : ∀ c ∈ signChars x.isNegative, Text.isBlank c = false := by
    cases x.isNegative <;> simp [signChars, Text.isBlank]
  have hinf : ∀ c ∈ ['i', 'n', 'f'], Text.isBlank c = false := by
    simp [Text.isBlank]
  apply Text.trim_of_noBlank
  rcases lt_trichotomy x.magnitude infinity with hfinite | hinfinite | hnan
  · rw [plainChars_of_finite hfinite]
    intro c hc
    rcases List.mem_append.1 hc with hc | hc
    · exact hsign c hc
    · rcases of_mem_positionalText hc with rfl | hc
      · decide
      · exact Text.isBlank_of_isDigit hc
  · rw [plainChars_of_infinite hinfinite]
    intro c hc
    rcases List.mem_append.1 hc with hc | hc
    · exact hsign c hc
    · exact hinf c hc
  · have hnan : x.isNaN := decide_eq_true hnan
    rw [plainChars, if_pos hnan]
    simp [Text.isBlank]

end SettingsArchive.Binary64
