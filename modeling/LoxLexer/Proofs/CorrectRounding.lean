import LoxLexer.Proofs.Nearest
/-!
# Correct rounding

What a rational rounds to among all doubles, said by their values (`Binary64.RoundsTo`), and by the magnitudes in order
(`Binary64.RoundsTo.nearestIndex`, `Binary64.RoundsTo.of_nearestIndex`).

Main statements: `Decimal.isFinite_toBinary64`, which decimals are read as a finite double, and
`Decimal.roundsTo_toBinary64`, that it is the one to which they round.
-/
namespace LoxLexer
namespace Binary64

/-! ## The values of magnitudes -/

/-- The absolute value that a magnitude stands for. -/
def valueOf (m : Nat) : ℚ := unitsOf m / 2 ^ 1074

theorem valueOf_strictMono : StrictMono valueOf := by
  intro m n h
  exact div_lt_div_of_pos_right (Nat.cast_lt.2 (unitsOf_strictMono h)) (by positivity)

theorem valueOf_zero : valueOf 0 = 0 := by
  have hunits : unitsOf 0 = 0 := rfl
  rw [valueOf, hunits, Nat.cast_zero, zero_div]

theorem absValue_eq (x : Binary64) : x.absValue = valueOf x.magnitude := rfl

/-- The integer in front of the power of two. -/
def significand (x : Binary64) : Nat :=
  if x.magnitude < binade then x.magnitude else binade + x.magnitude % binade

theorem units_eq (x : Binary64) : x.units = x.significand <<< (x.magnitude / binade - 1) := by
  unfold units unitsOf significand
  split_ifs with hlow
  · rw [Nat.div_eq_of_lt hlow]
    rfl
  · rfl

theorem significand_mod_two (x : Binary64) : x.significand % 2 = x.magnitude % 2 := by
  have heven : binade = 2 * 0x8000000000000 := rfl
  unfold significand
  rw [heven]
  split_ifs <;> omega

/-! ## What a rational rounds to -/

/-- A rational rounds to a number: to the nearest one, of two that are equally near to the one with the even
significand, and to none from halfway above the largest finite one. -/
structure RoundsTo (v : ℚ) (x : Binary64) : Prop where
  inRange : |v| < 2 ^ 1024 - 2 ^ 970
  isFinite : x.isFinite = true
  nearest : ∀ y : Binary64, y.isFinite = true → |v - x.value| ≤ |v - y.value|
  even : ∀ y : Binary64, y.isFinite = true → y.value ≠ x.value → |v - x.value| = |v - y.value| → x.significand % 2 = 0

theorem valueOf_infinity : valueOf (infinity - 1) + valueOf (infinity - 1 + 1) = 2 * (2 ^ 1024 - 2 ^ 970) := by
  decide +kernel

/-- What has the nearest magnitude is finite up to halfway above the largest finite number. -/
theorem isFinite_iff_of_nearest {v : ℚ} {m : Nat} (h : NearestIndex valueOf v m) :
    m < infinity ↔ v < 2 ^ 1024 - 2 ^ 970 := by
  have hle : m < infinity ↔ m ≤ infinity - 1 := by
    have : 0 < infinity := by decide
    omega
  rw [hle, h.le_iff_of_odd valueOf_strictMono (by decide), valueOf_infinity]
  exact mul_lt_mul_iff_right₀ (by norm_num)

theorem abs_value (x : Binary64) : |x.value| = x.absValue := by
  unfold value
  split_ifs
  · rw [abs_neg, abs_of_nonneg x.absValue_nonneg]
  · exact abs_of_nonneg x.absValue_nonneg

theorem exists_signed (s : Bool) {m : Nat} (hm : m < signBit) :
    ∃ y : Binary64, y.isNegative = s ∧ y.magnitude = m := by
  have hbits : signBit + signBit = 2 ^ 64 := by norm_num [signBit]
  cases s with
  | false =>
    have hnat : (UInt64.ofNat m).toNat = m := by
      rw [UInt64.toNat_ofNat', Nat.mod_eq_of_lt (by omega)]
    refine ⟨⟨UInt64.ofNat m⟩, decide_eq_false ?_, ?_⟩
    · rw [hnat]
      exact Nat.not_le.2 hm
    · rw [magnitude, hnat, Nat.mod_eq_of_lt hm]
  | true =>
    have hnat : (UInt64.ofNat (signBit + m)).toNat = signBit + m := by
      rw [UInt64.toNat_ofNat', Nat.mod_eq_of_lt (by omega)]
    refine ⟨⟨UInt64.ofNat (signBit + m)⟩, decide_eq_true ?_, ?_⟩
    · rw [hnat]
      exact Nat.le_add_right _ _
    · rw [magnitude, hnat, Nat.add_mod_left, Nat.mod_eq_of_lt hm]

/-- On the side of a rational stands a number of any finite magnitude. -/
theorem exists_beside (v : ℚ) {m : Nat} (hm : m < infinity) :
    ∃ y : Binary64, y.isFinite = true ∧ y.magnitude = m ∧ |v - y.value| = |(|v|) - valueOf m| := by
  have hsign : m < signBit := Nat.lt_trans hm (by decide)
  obtain ⟨y, hside, rfl⟩ := exists_signed (decide (v < 0)) hsign
  refine ⟨y, decide_eq_true hm, rfl, ?_⟩
  rw [value, hside, absValue_eq]
  by_cases hv : v < 0
  · rw [if_pos (decide_eq_true hv), abs_of_neg hv, sub_neg_eq_add, ← abs_neg, neg_add, sub_eq_add_neg]
  · rw [if_neg (by simpa using hv), abs_of_nonneg (not_lt.1 hv)]

theorem RoundsTo.nearestIndex {v : ℚ} {x : Binary64} (h : RoundsTo v x) :
    NearestIndex valueOf |v| x.magnitude := by
  have hinfinity : 0 < infinity := by decide
  have hx : |(|v|) - valueOf x.magnitude| ≤ |v - x.value| := by
    rw [← absValue_eq, ← abs_value]
    exact abs_abs_sub_abs_le v x.value
  refine .of_le valueOf_strictMono (n := infinity - 1) ?_ (fun i hi => ?_) (fun i hi hne heq => ?_)
  · rw [valueOf_infinity]
    exact mul_lt_mul_of_pos_left h.inRange (by norm_num)
  · obtain ⟨y, hy, rfl, hbeside⟩ := exists_beside v (by omega : i < infinity)
    rw [← hbeside]
    exact hx.trans (h.nearest y hy)
  · obtain ⟨y, hy, rfl, hbeside⟩ := exists_beside v (by omega : i < infinity)
    rw [← hbeside] at heq
    rw [← significand_mod_two]
    refine h.even y hy (fun hvalue => hne ?_) (le_antisymm (h.nearest y hy) (heq ▸ hx))
    have habs := congrArg abs hvalue
    rw [abs_value, abs_value] at habs
    exact valueOf_strictMono.injective habs

/-- A finite number of the nearest magnitude is what a rational rounds to, on its side of zero. -/
theorem RoundsTo.of_nearestIndex {v : ℚ} {x : Binary64} (h : NearestIndex valueOf |v| x.magnitude)
    (hx : x.isFinite = true) (hside : |v - x.value| = |(|v|) - x.absValue|) : RoundsTo v x := by
  have hfar : ∀ y : Binary64, |(|v|) - valueOf y.magnitude| ≤ |v - y.value| := fun y => by
    rw [← absValue_eq, ← abs_value]
    exact abs_abs_sub_abs_le v y.value
  refine ⟨(isFinite_iff_of_nearest h).1 (of_decide_eq_true hx), hx, fun y hy => ?_, fun y hy hne heq => ?_⟩
  · rw [hside]
    exact (h.le _).trans (hfar y)
  · rw [significand_mod_two]
    rw [hside] at heq
    by_cases hmagnitude : y.magnitude = x.magnitude
    -- the two differ in their sign alone, so it is zero that is halfway between them
    · have habs : |y.value| = |x.value| := by rw [abs_value, abs_value, absValue_eq, absValue_eq, hmagnitude]
      have hopposite := (abs_eq_abs.1 habs).resolve_left hne
      rw [← hside] at heq
      have hzero : v = 0 := by
        rcases abs_eq_abs.1 heq with hsame | hmiddle
        · exact absurd (sub_right_injective hsame).symm hne
        · linarith
      have hle := h.le 0
      rw [hzero, valueOf_zero, abs_zero, sub_zero, abs_zero, zero_sub, abs_neg, abs_nonpos_iff] at hle
      rw [valueOf_strictMono.injective (hle.trans valueOf_zero.symm)]
    · exact h.even y.magnitude hmagnitude (le_antisymm (h.le _) (heq ▸ hfar y))

/-! ## Rounding decimals -/

theorem nearest_ofRatio (num : Nat) {den : Nat} (hden : 0 < den) :
    NearestIndex valueOf (num / den) (nearestMagnitude (num <<< 1074) den) := by
  have hscaled : ∀ k : Nat, ((num <<< k : Nat) : ℚ) / den / 2 ^ k = num / den := fun k => by
    rw [Nat.shiftLeft_eq]
    push_cast
    field_simp
  have hnearest := (nearest_nearestMagnitude (num <<< 1074) hden).div (c := 2 ^ 1074) (by positivity)
  rwa [hscaled] at hnearest

end Binary64

namespace Decimal

open Binary64

theorem exists_nearest (d : Decimal) :
    ∃ m, NearestIndex valueOf d.value m ∧ d.toBinary64.magnitude = min m infinity := by
  obtain ⟨n, m, hm, hvalue, hread⟩ := d.exists_ratio
  rw [hvalue, hread]
  exact ⟨_, nearest_ofRatio n hm, magnitude_ofRatio n m⟩

theorem value_nonneg (d : Decimal) : 0 ≤ d.value := mul_nonneg (Nat.cast_nonneg _) (zpow_nonneg (by norm_num) _)

/-- **A decimal is read as infinity from halfway above the largest finite number.** -/
theorem isFinite_toBinary64 (d : Decimal) : d.toBinary64.isFinite = true ↔ d.value < 2 ^ 1024 - 2 ^ 970 := by
  obtain ⟨m, hnearest, hmagnitude⟩ := d.exists_nearest
  rw [← isFinite_iff_of_nearest hnearest, isFinite, hmagnitude, decide_eq_true_iff]
  omega

/-- **Below that it is read as the number to which it rounds.** -/
theorem roundsTo_toBinary64 {d : Decimal} (h : d.value < 2 ^ 1024 - 2 ^ 970) : RoundsTo d.value d.toBinary64 := by
  have hfinite := d.isFinite_toBinary64.2 h
  obtain ⟨m, hnearest, hmagnitude⟩ := d.exists_nearest
  rw [min_eq_left ((isFinite_iff_of_nearest hnearest).2 h).le] at hmagnitude
  have habs : |d.value| = d.value := abs_of_nonneg d.value_nonneg
  refine .of_nearestIndex ?_ hfinite ?_
  · rwa [habs, hmagnitude]
  · rw [habs, Binary64.value, isNegative_toBinary64, if_neg Bool.false_ne_true]

/-- What the absolute value of a rational is read as has the magnitude of what the rational rounds to. -/
theorem magnitude_eq_of_roundsTo {d : Decimal} {v : ℚ} {x : Binary64} (h : RoundsTo v x) (hv : d.value = |v|) :
    d.toBinary64.magnitude = x.magnitude := by
  obtain ⟨m, hnearest, hmagnitude⟩ := d.exists_nearest
  rw [hv] at hnearest
  rw [hmagnitude, hnearest.unique valueOf_strictMono h.nearestIndex]
  exact min_eq_left (of_decide_eq_true h.isFinite).le

end Decimal
end LoxLexer
