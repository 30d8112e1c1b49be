import LoxLexer.Token.Basic
import Mathlib.Algebra.Order.Field.Rat
import Mathlib.Tactic.FieldSimp
import Mathlib.Tactic.NormNum
import Mathlib.Tactic.Positivity
import Mathlib.Tactic.Ring
/-!
# Rounding to the nearest double

Rounding is about a ratio, not about the two naturals it is given by (`Binary64.ofRatio_congr`), and what a magnitude
is worth rounds to that magnitude (`Binary64.nearestMagnitude_unitsOf`).  With the values of decimals and doubles as
rationals that is: a decimal is read by its value (`Decimal.toBinary64_congr`), and one that has the value of a double
reads as that double (`Decimal.magnitude_toBinary64`).
-/
namespace LoxLexer

theorem roundEven_mul_right (a b : Nat) {k : Nat} (hk : 0 < k) : roundEven (a * k) (b * k) = roundEven a b := by
  have hdouble : 2 * (a % b * k) = 2 * (a % b) * k := (Nat.mul_assoc 2 (a % b) k).symm
  simp only [roundEven, Nat.mul_div_mul_right a b hk, Nat.mul_mod_mul_right, hdouble, Nat.mul_lt_mul_right hk]

theorem roundEven_mul_self (a : Nat) {b : Nat} (hb : 0 < b) : roundEven (a * b) b = a := by
  rw [roundEven, Nat.mul_mod_left, Nat.mul_div_cancel a hb, if_pos (by omega)]

namespace Binary64

/-! ## Magnitudes and units -/

theorem nearestMagnitude_mul_right (units den : Nat) {k : Nat} (hk : 0 < k) :
    nearestMagnitude (units * k) (den * k) = nearestMagnitude units den := by
  have hspacing : spacing (units * k) (den * k) = spacing units den := by
    rw [spacing, spacing, Nat.mul_div_mul_right units den hk]
  have hden : (den * k) <<< spacing units den = den <<< spacing units den * k := by
    rw [Nat.shiftLeft_eq, Nat.shiftLeft_eq, Nat.mul_right_comm]
  rw [nearestMagnitude, nearestMagnitude, hspacing, hden, roundEven_mul_right _ _ hk]

theorem nearestMagnitude_scaled (units k : Nat) :
    nearestMagnitude (units <<< k) (2 ^ k) = nearestMagnitude units 1 := by
  have h := nearestMagnitude_mul_right units 1 (Nat.two_pow_pos k)
  rwa [Nat.one_mul, ← Nat.shiftLeft_eq] at h

/-- What is on the spacing is not rounded. -/
theorem nearestMagnitude_shiftLeft {f k : Nat} (hk : spacing (f <<< k) 1 = k) :
    nearestMagnitude (f <<< k) 1 = k * binade + f := by
  rw [nearestMagnitude, hk, Nat.shiftLeft_eq, Nat.shiftLeft_eq, Nat.one_mul,
    roundEven_mul_self f (Nat.pow_pos (by decide))]

theorem binade_eq : binade = 2 ^ 52 := by norm_num [binade]

theorem spacing_of_lt {f : Nat} (hf : f < binade) : spacing f 1 = 0 := by
  rw [spacing, Nat.div_one, Nat.sub_eq_zero_iff_le]
  by_cases hzero : f = 0
  · subst hzero
    exact Nat.zero_le _
  · rw [binade_eq] at hf
    exact Nat.le_of_lt ((Nat.log2_lt hzero).2 hf)

theorem spacing_shiftLeft {f : Nat} (hle : binade ≤ f) (hlt : f < 2 * binade) (k : Nat) : spacing (f <<< k) 1 = k := by
  rw [binade_eq] at hle hlt
  have hpos : f <<< k ≠ 0 := by
    rw [Nat.shiftLeft_eq]
    exact Nat.mul_ne_zero (by omega) (Nat.pow_pos (by decide)).ne'
  have hlog : (f <<< k).log2 = 52 + k := by
    rw [Nat.log2_eq_iff hpos, Nat.shiftLeft_eq]
    constructor
    · rw [Nat.pow_add]
      exact Nat.mul_le_mul_right _ hle
    · rw [Nat.add_right_comm, Nat.pow_add, Nat.pow_succ, Nat.mul_comm (2 ^ 52)]
      exact Nat.mul_lt_mul_of_pos_right hlt (Nat.pow_pos (by decide))
  rw [spacing, Nat.div_one, hlog, Nat.add_sub_cancel_left]

theorem two_mul_binade (k : Nat) : k * binade + 2 * binade = (k + 1) * binade + binade := by
  rw [Nat.add_mul, Nat.one_mul]
  omega

theorem unitsOf_normal {k r : Nat} (hle : binade ≤ r) (hlt : r < 2 * binade) : unitsOf (k * binade + r) = r <<< k := by
  have hbinade : 0 < binade := by decide
  have hsplit : k * binade + r = (r - binade) + binade * (k + 1) := by
    rw [Nat.mul_add, Nat.mul_comm binade k]
    omega
  have hfraction : r - binade < binade := by omega
  rw [unitsOf, if_neg (by omega), hsplit, Nat.add_mul_div_left _ _ hbinade, Nat.add_mul_mod_self_left,
    Nat.div_eq_of_lt hfraction, Nat.mod_eq_of_lt hfraction, Nat.zero_add, Nat.add_sub_cancel, Nat.add_sub_cancel' hle]

/-- On the spacing of `2 ^ k` units the magnitudes are consecutive, the next power of two included. -/
theorem unitsOf_add {k r : Nat} (hk : k = 0 ∨ binade ≤ r) (hr : r ≤ 2 * binade) :
    unitsOf (k * binade + r) = r <<< k := by
  by_cases hlow : r < binade
  · obtain rfl : k = 0 := hk.resolve_right (Nat.not_le.2 hlow)
    rw [Nat.zero_mul, Nat.zero_add, unitsOf, if_pos hlow]
    rfl
  rcases Nat.lt_or_eq_of_le hr with hlt | rfl
  · exact unitsOf_normal (Nat.le_of_not_lt hlow) hlt
  · have hbinade : binade < 2 * binade := by decide
    rw [two_mul_binade, unitsOf_normal (Nat.le_refl _) hbinade, Nat.shiftLeft_eq, Nat.shiftLeft_eq, Nat.pow_succ,
      Nat.mul_comm 2, Nat.mul_right_comm, Nat.mul_assoc]

/-- Every magnitude is on such a spacing. -/
theorem exists_spacing (m : Nat) : ∃ k r, m = k * binade + r ∧ (k = 0 ∨ binade ≤ r) ∧ r < 2 * binade := by
  have hbinade : 0 < binade := by decide
  have hsplit := Nat.div_add_mod m binade
  have hfraction := Nat.mod_lt m hbinade
  cases hpower : m / binade with
  | zero =>
    rw [hpower] at hsplit
    exact ⟨0, m, by omega, .inl rfl, by omega⟩
  | succ k =>
    rw [hpower, Nat.mul_add, Nat.mul_comm binade k] at hsplit
    exact ⟨k, binade + m % binade, by omega, .inr (by omega), by omega⟩

theorem spacing_unitsOf {k r : Nat} (hk : k = 0 ∨ binade ≤ r) (hr : r < 2 * binade) : spacing (r <<< k) 1 = k := by
  by_cases hlow : r < binade
  · obtain rfl : k = 0 := hk.resolve_right (Nat.not_le.2 hlow)
    exact spacing_of_lt hlow
  · exact spacing_shiftLeft (Nat.le_of_not_lt hlow) hr k

/-- **The value of a magnitude is nearest to that magnitude.** -/
theorem nearestMagnitude_unitsOf (m : Nat) : nearestMagnitude (unitsOf m) 1 = m := by
  obtain ⟨k, r, rfl, hk, hr⟩ := exists_spacing m
  rw [unitsOf_add hk hr.le, nearestMagnitude_shiftLeft (spacing_unitsOf hk hr)]

/-! ## Bits -/

section

variable (num den : Nat)

theorem toNat_bits_ofRatio :
    (ofRatio num den).bits.toNat = min (nearestMagnitude (num <<< 1074) den) infinity := by
  have hlt : min (nearestMagnitude (num <<< 1074) den) infinity < 2 ^ 64 :=
    Nat.lt_of_le_of_lt (Nat.min_le_right _ _) (by norm_num [infinity])
  rw [ofRatio, UInt64.toNat_ofNat', Nat.mod_eq_of_lt hlt]

theorem toNat_bits_ofRatio_lt : (ofRatio num den).bits.toNat < signBit := by
  rw [toNat_bits_ofRatio]
  exact Nat.lt_of_le_of_lt (Nat.min_le_right _ _) (by decide)

theorem magnitude_ofRatio :
    (ofRatio num den).magnitude = min (nearestMagnitude (num <<< 1074) den) infinity := by
  rw [magnitude, Nat.mod_eq_of_lt (toNat_bits_ofRatio_lt num den), toNat_bits_ofRatio]

theorem isNegative_ofRatio : (ofRatio num den).isNegative = false :=
  decide_eq_false (Nat.not_le_of_lt (toNat_bits_ofRatio_lt num den))

end

/-- A sign and a magnitude are all that a number is. -/
theorem eq_of_sign_of_magnitude {x y : Binary64} (hsign : x.isNegative = y.isNegative)
    (h : x.magnitude = y.magnitude) : x = y := by
  have hx := x.bits.toNat_lt
  have hy := y.bits.toNat_lt
  have htoNat : x.bits.toNat = y.bits.toNat := by
    simp only [isNegative, decide_eq_decide] at hsign
    unfold magnitude at h
    unfold signBit at h hsign
    omega
  obtain ⟨bits⟩ := x
  obtain ⟨bits'⟩ := y
  exact congrArg Binary64.mk (UInt64.toNat_inj.1 htoNat)

theorem eq_of_magnitude_eq {x y : Binary64} (hx : x.isNegative = false) (hy : y.isNegative = false)
    (h : x.magnitude = y.magnitude) : x = y := eq_of_sign_of_magnitude (hx.trans hy.symm) h

theorem ofRatio_mul_right (num den : Nat) {k : Nat} (hk : 0 < k) : ofRatio (num * k) (den * k) = ofRatio num den := by
  have hnum : (num * k) <<< 1074 = num <<< 1074 * k := by
    rw [Nat.shiftLeft_eq, Nat.shiftLeft_eq, Nat.mul_right_comm]
  rw [ofRatio, ofRatio, hnum, nearestMagnitude_mul_right _ _ hk]

theorem ofRatio_congr {a b c d : Nat} (hb : 0 < b) (hd : 0 < d) (h : a * d = c * b) : ofRatio a b = ofRatio c d := by
  rw [← ofRatio_mul_right a b hd, h, Nat.mul_comm b d, ofRatio_mul_right c d hb]

theorem magnitude_ofRatio_units {x : Binary64} (hx : x.isFinite = true) :
    (ofRatio x.units (2 ^ 1074)).magnitude = x.magnitude := by
  rw [magnitude_ofRatio, nearestMagnitude_scaled, units, nearestMagnitude_unitsOf]
  exact Nat.min_eq_left (Nat.le_of_lt (of_decide_eq_true hx))

/-- The absolute value of a finite number. -/
def absValue (x : Binary64) : ℚ := x.units / 2 ^ 1074

theorem absValue_nonneg (x : Binary64) : 0 ≤ x.absValue := div_nonneg (Nat.cast_nonneg _) (pow_nonneg (by norm_num) _)

/-- What a finite number stands for. -/
def value (x : Binary64) : ℚ := if x.isNegative then -x.absValue else x.absValue

end Binary64

namespace Decimal

open Binary64

/-- What a decimal stands for. -/
def value (d : Decimal) : ℚ := d.coefficient * 10 ^ d.exponent

theorem exists_ratio (d : Decimal) : ∃ n m : Nat, 0 < m ∧ d.value = n / m ∧ d.toBinary64 = ofRatio n m := by
  obtain ⟨c, e⟩ := d
  cases e with
  | ofNat e =>
    refine ⟨c * Nat.pow 10 e, 1, Nat.one_pos, ?_, rfl⟩
    rw [value, Int.ofNat_eq_natCast, zpow_natCast, Nat.pow_eq]
    push_cast
    rw [div_one]
  | negSucc e =>
    refine ⟨c, Nat.pow 10 (e + 1), Nat.pow_pos (by decide), ?_, rfl⟩
    rw [value, zpow_negSucc, Nat.pow_eq]
    push_cast
    rfl

/-- **A decimal is read by its value**, in whatever ratio that is given. -/
theorem toBinary64_eq_ofRatio {d : Decimal} {n m : Nat} (hm : 0 < m) (h : d.value = n / m) :
    d.toBinary64 = ofRatio n m := by
  obtain ⟨n', m', hm', hvalue, hread⟩ := d.exists_ratio
  have hcross : (n' * m : ℚ) = n * m' := by
    rw [← div_eq_div_iff (Nat.cast_ne_zero.2 hm'.ne') (Nat.cast_ne_zero.2 hm.ne'), ← hvalue, h]
  rw [hread]
  exact ofRatio_congr hm' hm (by exact_mod_cast hcross)

theorem toBinary64_congr {d d' : Decimal} (h : d.value = d'.value) : d.toBinary64 = d'.toBinary64 := by
  obtain ⟨n, m, hm, hvalue, hread⟩ := d'.exists_ratio
  rw [hread]
  exact toBinary64_eq_ofRatio hm (h.trans hvalue)

theorem isNegative_toBinary64 (d : Decimal) : d.toBinary64.isNegative = false := by
  obtain ⟨n, m, -, -, hread⟩ := d.exists_ratio
  rw [hread, isNegative_ofRatio]

theorem toBinary64_of_dyadic {d : Decimal} {n k : Nat} (h : d.value = n / 2 ^ k) :
    d.toBinary64 = ofRatio n (2 ^ k) := by
  have hvalue : d.value = n / ((2 ^ k : Nat) : ℚ) := by rw [h, Nat.cast_pow, Nat.cast_ofNat]
  exact toBinary64_eq_ofRatio (Nat.two_pow_pos k) hvalue

/-- **A decimal with the value of a double reads as that double.** -/
theorem magnitude_toBinary64 {d : Decimal} {x : Binary64} (hx : x.isFinite = true) (h : d.value = x.absValue) :
    d.toBinary64.magnitude = x.magnitude := by
  rw [absValue] at h
  rw [toBinary64_of_dyadic h, magnitude_ofRatio_units hx]

end Decimal
end LoxLexer
