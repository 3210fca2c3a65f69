import Mathlib.Algebra.Order.Field.Power
import Mathlib.Algebra.Order.Ring.Rat
import Mathlib.Algebra.Field.Rat
import Mathlib.Tactic.FieldSimp
import Mathlib.Tactic.GCongr
import Mathlib.Tactic.NormNum
import Mathlib.Tactic.Positivity
import Mathlib.Tactic.Ring
import SettingsArchive.Binary64.Shortest

/-!
# Written magnitudes round back

A finite magnitude is a factor times a power of two.  Rounding a fraction of
that value finds the same power and the same factor (`nearest_eq_of_scaled`),
so the value written out in decimal digits rounds to the magnitude
(`toMagnitude_exact`), and so do the fewest digits (`toMagnitude_shortest`).
-/

namespace SettingsArchive.Binary64

/-! ## Powers of two -/

/-- Shifting a fraction compares it with a power of two. -/
theorem shift_le_shift_iff {num den : Nat} (hden : 0 < den) (e : Int) :
    den <<< e.toNat ≤ num <<< (-e).toNat ↔ (2 : ℚ) ^ e ≤ num / den := by
  have hden : (0 : ℚ) < den := by exact_mod_cast hden
  obtain ⟨n, rfl | rfl⟩ := e.eq_nat_or_neg
  · have hzero : (-(n : Int)).toNat = 0 := by omega
    rw [hzero, Int.toNat_natCast, Nat.shiftLeft_zero, Nat.shiftLeft_eq,
      zpow_natCast, le_div_iff₀ hden, mul_comm]
    exact_mod_cast Iff.rfl
  · have hzero : (-(n : Int)).toNat = 0 := by omega
    have hpow : (0 : ℚ) < 2 ^ n := by positivity
    rw [hzero, neg_neg, Int.toNat_natCast, Nat.shiftLeft_zero, Nat.shiftLeft_eq,
      zpow_neg, zpow_natCast, le_div_iff₀ hden, inv_mul_le_iff₀ hpow, mul_comm]
    exact_mod_cast Iff.rfl

theorem cast_log2 {n : Nat} (hn : 0 < n) :
    (2 : ℚ) ^ (Nat.log2 n : Int) ≤ n ∧
      (n : ℚ) < 2 ^ ((Nat.log2 n : Int) + 1) := by
  have hle := Nat.log2_self_le hn.ne'
  have hlt := Nat.lt_log2_self (n := n)
  constructor
  · rw [zpow_natCast]
    exact_mod_cast hle
  · rw [← Nat.cast_succ, zpow_natCast]
    exact_mod_cast hlt

/-- A positive fraction lies between the power of two found and the next. -/
theorem floorLog2_spec {num den : Nat} (hnum : 0 < num) (hden : 0 < den) :
    (2 : ℚ) ^ floorLog2 num den ≤ num / den ∧
      (num / den : ℚ) < 2 ^ (floorLog2 num den + 1) := by
  obtain ⟨hnle, hnlt⟩ := cast_log2 hnum
  obtain ⟨hdle, hdlt⟩ := cast_log2 hden
  have hcast : (0 : ℚ) < den := by exact_mod_cast hden
  have htwo : (2 : ℚ) ≠ 0 := by norm_num
  unfold floorLog2
  simp only [shift_le_shift_iff hden]
  split
  · rename_i hle
    refine ⟨hle, ?_⟩
    rw [div_lt_iff₀ hcast]
    calc (num : ℚ) < 2 ^ ((Nat.log2 num : Int) + 1) := hnlt
      _ = 2 ^ ((Nat.log2 num : Int) - Nat.log2 den + 1)
            * 2 ^ (Nat.log2 den : Int) := by
        rw [← zpow_add₀ htwo]
        congr 1
        ring
      _ ≤ _ := by gcongr
  · rename_i hlt
    rw [not_le] at hlt
    refine ⟨?_, by simpa using hlt⟩
    rw [le_div_iff₀ hcast]
    calc (2 : ℚ) ^ ((Nat.log2 num : Int) - Nat.log2 den - 1) * den
        ≤ 2 ^ ((Nat.log2 num : Int) - Nat.log2 den - 1)
            * 2 ^ ((Nat.log2 den : Int) + 1) := by gcongr
      _ = 2 ^ (Nat.log2 num : Int) := by
        rw [← zpow_add₀ htwo]
        congr 1
        ring
      _ ≤ num := hnle

/-- The power of two below a positive fraction is the only one with the
fraction below the next. -/
theorem floorLog2_eq {num den : Nat} (hnum : 0 < num) (hden : 0 < den)
    {e : Int} (hle : (2 : ℚ) ^ e ≤ num / den)
    (hlt : (num / den : ℚ) < 2 ^ (e + 1)) : floorLog2 num den = e := by
  obtain ⟨hfle, hflt⟩ := floorLog2_spec hnum hden
  have htwo : (1 : ℚ) < 2 := by norm_num
  have hbelow := (zpow_lt_zpow_iff_right₀ htwo).1 (hle.trans_lt hflt)
  have habove := (zpow_lt_zpow_iff_right₀ htwo).1 (hfle.trans_lt hlt)
  omega

/-! ## Rounding a value that needs none -/

theorem roundEven_mul {den : Nat} (hden : 0 < den) (factor : Nat) :
    roundEven (factor * den) den = factor := by
  unfold roundEven
  simp only [Nat.mul_div_cancel _ hden, Nat.mul_mod_left]
  rw [if_pos (by omega)]

/-- A factor that is not too long, at the power of the smallest magnitude or
with its first bit set. -/
structure IsScaled (factor : Nat) (power : Int) : Prop where
  pos : 0 < factor
  short : factor < 2 * leadingBit
  low : -1074 ≤ power
  high : power ≤ 971
  normal : power = -1074 ∨ leadingBit ≤ factor

theorem scaled_spec {magnitude : Nat} (hpos : 0 < magnitude)
    (hfinite : magnitude < infinity) :
    IsScaled (scaled magnitude).1 (scaled magnitude).2 ∧
      ((scaled magnitude).2 + 1074).toNat * leadingBit + (scaled magnitude).1 =
        magnitude := by
  unfold scaled leadingBit at *
  unfold infinity at hfinite
  split
  · rename_i hsmall
    refine ⟨⟨hpos, ?_, le_rfl, ?_, Or.inl rfl⟩, by simp⟩
    · unfold leadingBit
      simp only
      omega
    · simp only
      omega
  · rename_i hlarge
    refine ⟨⟨?_, ?_, ?_, ?_, Or.inr ?_⟩, ?_⟩
    · simp only
      omega
    · unfold leadingBit
      simp only
      omega
    · simp only
      omega
    · simp only
      omega
    · unfold leadingBit
      simp only
      omega
    · simp only
      omega

section Scaled

variable {num den factor : Nat} {power : Int}

/-- Shifted by the power, a fraction of a scaled value is the factor. -/
theorem shift_eq_of_value (hden : 0 < den)
    (hvalue : (num : ℚ) / den = factor * 2 ^ power) :
    num <<< (-power).toNat = factor * den <<< power.toNat := by
  have hcast : (0 : ℚ) < den := by exact_mod_cast hden
  obtain ⟨n, rfl | rfl⟩ := power.eq_nat_or_neg
  · have hzero : (-(n : Int)).toNat = 0 := by omega
    rw [div_eq_iff hcast.ne', zpow_natCast] at hvalue
    rw [hzero, Int.toNat_natCast, Nat.shiftLeft_zero, Nat.shiftLeft_eq]
    have hnat : num = factor * 2 ^ n * den := by exact_mod_cast hvalue
    rw [hnat]
    ring
  · have hzero : (-(n : Int)).toNat = 0 := by omega
    have hpow : (2 : ℚ) ^ n ≠ 0 := by positivity
    rw [div_eq_iff hcast.ne', zpow_neg, zpow_natCast] at hvalue
    rw [hzero, neg_neg, Int.toNat_natCast, Nat.shiftLeft_zero,
      Nat.shiftLeft_eq]
    have hnat : (num : ℚ) * 2 ^ n = factor * den := by
      rw [hvalue]
      field_simp
    exact_mod_cast hnat

/-- The power of a scaled value is found again. -/
theorem power_eq_of_scaled (hscaled : IsScaled factor power) (hnum : 0 < num)
    (hden : 0 < den) (hvalue : (num : ℚ) / den = factor * 2 ^ power) :
    max (floorLog2 num den - 52) (-1074) = power := by
  have htwo : (2 : ℚ) ≠ 0 := by norm_num
  -- The value is below the power of two behind the longest factor.
  have hlt : (num / den : ℚ) < 2 ^ (power + 53) := by
    have hshort : (factor : ℚ) < 2 ^ (53 : Int) := by
      have := hscaled.short
      unfold leadingBit at this
      norm_num
      exact_mod_cast this
    rw [hvalue, zpow_add₀ htwo, mul_comm]
    gcongr
  rcases hscaled.normal with hsmallest | hnormal
  · have hbelow : floorLog2 num den < power + 53 :=
      (zpow_lt_zpow_iff_right₀ (by norm_num : (1 : ℚ) < 2)).1
        ((floorLog2_spec hnum hden).1.trans_lt hlt)
    omega
  · have hle : (2 : ℚ) ^ (power + 52) ≤ num / den := by
      have hlong : (2 : ℚ) ^ (52 : Int) ≤ factor := by
        unfold leadingBit at hnormal
        norm_num
        exact_mod_cast hnormal
      rw [hvalue, zpow_add₀ htwo, mul_comm]
      gcongr
    have hfloor := floorLog2_eq hnum hden hle
      (by rw [add_assoc]; exact hlt)
    have hlow := hscaled.low
    omega

/-- A fraction of a scaled value rounds to its magnitude. -/
theorem nearest_eq_of_scaled (hscaled : IsScaled factor power) (hden : 0 < den)
    (hvalue : (num : ℚ) / den = factor * 2 ^ power) :
    nearest num den =
      min ((power + 1074).toNat * leadingBit + factor) infinity := by
  have hcast : (0 : ℚ) < den := by exact_mod_cast hden
  have hfactor : (0 : ℚ) < factor := by exact_mod_cast hscaled.pos
  have hnum : 0 < num := by
    have hquotient : (0 : ℚ) < num / den := by
      rw [hvalue]
      positivity
    exact_mod_cast (div_pos_iff_of_pos_right hcast).1 hquotient
  have hshifted : 0 < den <<< power.toNat := by
    rw [Nat.shiftLeft_eq]
    positivity
  unfold nearest
  rw [if_neg hnum.ne']
  simp only [power_eq_of_scaled hscaled hnum hden hvalue,
    shift_eq_of_value hden hvalue, roundEven_mul hshifted]

end Scaled

/-! ## Decimal digits -/

/-- A decimal number whose first digit is in range is rounded as a
fraction. -/
theorem ofDecimal_eq_nearest {digits : Nat} {exponent : Int}
    (hpos : 0 < digits) (hlow : 10 ^ (-exponent - 400).toNat ≤ digits)
    (hhigh : digits < 10 ^ (401 - exponent).toNat) (hexp : exponent ≤ 400) :
    ofDecimal digits exponent =
      nearest (digits * 10 ^ exponent.toNat) (10 ^ (-exponent).toNat) := by
  have hlong : (-exponent - 400).toNat < (Nat.toDigits 10 digits).length := by
    by_contra hshort
    rw [not_lt] at hshort
    by_cases hzero : (-exponent - 400).toNat = 0
    · have hne : 0 < (Nat.toDigits 10 digits).length :=
        List.length_pos_iff.2 Nat.toDigits_ne_nil
      omega
    · have := (Nat.length_toDigits_le_iff (by decide) (by omega)).1 hshort
      omega
  have hshort := (Nat.length_toDigits_le_iff (b := 10) (by decide)
    (by omega : 0 < (401 - exponent).toNat)).2 hhigh
  unfold ofDecimal
  simp only
  rw [if_neg (by omega), if_neg (by omega)]
  rfl

theorem pow_mul_le_pow {a b k : Nat} (h : a ^ k ≤ b) (n : Nat) :
    a ^ (k * n) ≤ b ^ n := by
  rw [Nat.pow_mul]
  exact Nat.pow_le_pow_left h n

/-- A power of five has at least two thirds of the digits of its power of
ten. -/
theorem pow_ten_sub_le_pow_five {n c : Nat} (h : n ≤ 3 * c) :
    10 ^ (n - c) ≤ 5 ^ n := by
  by_cases hsmall : n ≤ c
  · rw [Nat.sub_eq_zero_of_le hsmall, Nat.pow_zero]
    exact Nat.pow_pos (by decide)
  · have hpow : 2 ^ (n - c) ≤ 5 ^ c :=
      calc 2 ^ (n - c) ≤ 2 ^ (2 * c) :=
            Nat.pow_le_pow_right (by decide) (by omega)
        _ ≤ 5 ^ c := pow_mul_le_pow (by decide) c
    calc 10 ^ (n - c) = 2 ^ (n - c) * 5 ^ (n - c) := Nat.mul_pow 2 5 (n - c)
      _ ≤ 5 ^ c * 5 ^ (n - c) := Nat.mul_le_mul_right _ hpow
      _ = 5 ^ (c + (n - c)) := (Nat.pow_add 5 c (n - c)).symm
      _ = 5 ^ n := by rw [Nat.add_sub_cancel' (by omega)]

/-- A short factor times a power of two has few digits. -/
theorem shiftLeft_lt_pow_ten {factor n c : Nat} (hshort : factor < 2 ^ 53)
    (h : 53 + n ≤ 3 * c) : factor <<< n < 10 ^ c := by
  rw [Nat.shiftLeft_eq]
  calc factor * 2 ^ n < 2 ^ 53 * 2 ^ n :=
        Nat.mul_lt_mul_of_pos_right hshort (Nat.pow_pos (by decide))
    _ = 2 ^ (53 + n) := (Nat.pow_add 2 53 n).symm
    _ ≤ 2 ^ (3 * c) := Nat.pow_le_pow_right (by decide) h
    _ ≤ 10 ^ c := pow_mul_le_pow (by decide) c

/-- A scaled whole number written out rounds to its magnitude. -/
theorem ofDecimal_shiftLeft {factor n : Nat} (hscaled : IsScaled factor n) :
    ofDecimal (factor <<< n) 0 =
      min (((n : Int) + 1074).toNat * leadingBit + factor) infinity := by
  have hfactor := hscaled.pos
  have hshort : factor < 2 ^ 53 := hscaled.short
  have hhigh := hscaled.high
  have hdigits : 0 < factor <<< n := by
    rw [Nat.shiftLeft_eq]
    positivity
  have hvalue : ((factor <<< n * 10 ^ (0 : Int).toNat : Nat) : ℚ) /
      (10 ^ (-(0 : Int)).toNat : Nat) = factor * 2 ^ (n : Int) := by
    rw [Nat.shiftLeft_eq]
    simp
  have hround : ofDecimal (factor <<< n) 0 = nearest _ _ :=
    ofDecimal_eq_nearest hdigits hdigits
      (shiftLeft_lt_pow_ten hshort (by omega)) (by decide)
  rw [hround, nearest_eq_of_scaled hscaled (Nat.pow_pos (by decide)) hvalue]

/-- A scaled fraction written out rounds to its magnitude. -/
theorem ofDecimal_mul_pow_five {factor n : Nat}
    (hscaled : IsScaled factor (-(n : Int))) :
    ofDecimal (factor * 5 ^ n) (-(n : Int)) =
      min ((-(n : Int) + 1074).toNat * leadingBit + factor) infinity := by
  have hfactor := hscaled.pos
  have hshort : factor < 2 ^ 53 := hscaled.short
  have hlow := hscaled.low
  have hbound : factor * 5 ^ n < 10 ^ (401 + n) :=
    calc factor * 5 ^ n < 10 ^ 401 * 5 ^ n := by
          gcongr
          exact hshort.trans_le (by decide +kernel)
      _ ≤ 10 ^ 401 * 10 ^ n := by
          gcongr
          decide
      _ = 10 ^ (401 + n) := by rw [← Nat.pow_add]
  have hlong : 10 ^ (n - 400) ≤ factor * 5 ^ n :=
    (pow_ten_sub_le_pow_five (by omega)).trans
      (Nat.le_mul_of_pos_left _ hfactor)
  have hlowExp : (- -(n : Int) - 400).toNat = n - 400 := by omega
  have hhighExp : (401 - -(n : Int)).toNat = 401 + n := by omega
  have hvalue : ((factor * 5 ^ n * 10 ^ (-(n : Int)).toNat : Nat) : ℚ) /
      (10 ^ (- -(n : Int)).toNat : Nat) = factor * 2 ^ (-(n : Int)) := by
    have hzero : (-(n : Int)).toNat = 0 := by omega
    have hten : (10 : ℚ) ^ n = 2 ^ n * 5 ^ n := by
      rw [← mul_pow]
      norm_num
    rw [hzero, neg_neg, Int.toNat_natCast]
    push_cast
    rw [hten, zpow_neg, zpow_natCast]
    field_simp
  rw [ofDecimal_eq_nearest (by positivity) (by rw [hlowExp]; exact hlong)
    (by rw [hhighExp]; exact hbound) (by omega),
    nearest_eq_of_scaled hscaled (Nat.pow_pos (by decide)) hvalue]

/-- The value of a finite magnitude written out rounds to the magnitude. -/
theorem toMagnitude_exact {magnitude : Nat} (hpos : 0 < magnitude)
    (hfinite : magnitude < infinity) :
    (exact magnitude).toMagnitude = magnitude := by
  obtain ⟨hscaled, hmagnitude⟩ := scaled_spec hpos hfinite
  have hmin : min magnitude infinity = magnitude := by omega
  unfold exact Decimal.toMagnitude
  rcases hparts : scaled magnitude with ⟨factor, power⟩
  rw [hparts] at hscaled hmagnitude
  dsimp only at *
  split
  · rename_i hpower
    obtain ⟨n, rfl⟩ := Int.eq_ofNat_of_zero_le hpower
    rw [Int.toNat_natCast, ofDecimal_shiftLeft hscaled, hmagnitude, hmin]
  · rename_i hpower
    obtain ⟨n, rfl | rfl⟩ := power.eq_nat_or_neg
    · omega
    · rw [neg_neg, Int.toNat_natCast]
      show ofDecimal (factor * 5 ^ n) (-(n : Int)) = magnitude
      rw [ofDecimal_mul_pow_five hscaled, hmagnitude, hmin]

/-- The digits of a finite magnitude round to the magnitude. -/
theorem toMagnitude_shortest (tie : Tie) {magnitude : Nat}
    (hfinite : magnitude < infinity) :
    (shortest tie magnitude).toMagnitude = magnitude := by
  unfold shortest
  split
  · rename_i hzero
    rw [hzero]
    rfl
  · rename_i hpos
    cases hfound : (List.range 17).findSome? fun n =>
        candidate? tie magnitude (n + 1) with
    | none => exact toMagnitude_exact (Nat.pos_of_ne_zero hpos) hfinite
    | some d =>
      obtain ⟨n, -, hn⟩ := List.exists_of_findSome?_eq_some hfound
      exact toMagnitude_candidate? hn

end SettingsArchive.Binary64
