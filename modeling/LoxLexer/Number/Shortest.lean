import LoxLexer.Number.Decimal
/-!
# The shortest decimal that reads back

A finite double is a decimal with finitely many digits, `expansion x` of them in steps of `10 ^ -1074`.  Cutting that
expansion after its first digit, after its second and so on gives the two decimals of that length around the value;
the first length at which one of them reads back as the value wins.  Reading back is `Decimal.toBinary64` itself, so
there is no interval to compute and no bound on the length to know: the whole expansion reads back at the latest.

Of two neighbours that both read back the closer wins, and halfway the upper one.
-/
namespace LoxLexer

def digits (n : Nat) : List Char := Nat.toDigits 10 n

/-- How many decimal digits a natural has; long ones are cut by many digits at once. -/
def decimalLength (n : Nat) : Nat :=
  if n < 10 then 1
  else if n < Nat.pow 10 64 then decimalLength (n / 10) + 1
  else decimalLength (n / Nat.pow 10 64) + 64
termination_by n
decreasing_by all_goals exact Nat.div_lt_self (by omega) (by decide)

theorem decimalLength_pos (n : Nat) : 0 < decimalLength n := by
  fun_cases decimalLength n <;> omega

theorem lt_pow_decimalLength (n : Nat) : n < Nat.pow 10 (decimalLength n) := by
  fun_induction decimalLength n with
  | case1 n h => exact h
  | case2 n _ _ ih => exact (Nat.div_lt_iff_lt_mul (by decide)).1 ih
  | case3 n _ _ ih =>
    rw [Nat.pow_eq, Nat.pow_add]
    exact (Nat.div_lt_iff_lt_mul (by decide)).1 ih

/-- A number that is not zero has no leading zero. -/
theorem pow_decimalLength_le (n : Nat) (hn : 0 < n) : Nat.pow 10 (decimalLength n - 1) ≤ n := by
  fun_induction decimalLength n with
  | case1 n _ => exact hn
  | case2 n h _ ih =>
    obtain ⟨k, hk⟩ := Nat.exists_eq_succ_of_ne_zero (Nat.pos_iff_ne_zero.1 (decimalLength_pos (n / 10)))
    have := ih (by omega)
    rw [hk] at this ⊢
    exact (Nat.le_div_iff_mul_le (by decide)).1 this
  | case3 n _ h ih =>
    obtain ⟨k, hk⟩ := Nat.exists_eq_succ_of_ne_zero (Nat.pos_iff_ne_zero.1 (decimalLength_pos (n / Nat.pow 10 64)))
    have := ih (Nat.div_pos (Nat.le_of_not_lt h) (by decide))
    rw [hk] at this ⊢
    rw [show k.succ + 64 - 1 = k + 64 by omega, Nat.pow_eq, Nat.pow_add]
    exact (Nat.le_div_iff_mul_le (by decide)).1 this

namespace Decimal

/-- The same value without the zeros at the end of its coefficient; for zero, the exponent is zero as well. -/
def stripZeros (d : Decimal) : Decimal :=
  if d.coefficient = 0 then ⟨0, 0⟩
  else if d.coefficient % 10 = 0 then stripZeros ⟨d.coefficient / 10, d.exponent + 1⟩
  else d
termination_by d.coefficient

end Decimal

namespace Binary64

/-- The absolute value in steps of `10 ^ -1074`: all of its decimal digits. -/
def expansion (x : Binary64) : Nat := x.units * Nat.pow 5 1074

/-- Whether a decimal is nearest to the absolute value of `x` among the double-precision numbers. -/
def isReadBackBy (x : Binary64) (d : Decimal) : Bool := decide (d.toBinary64.magnitude = x.magnitude)

/-- The expansion without its last `k` digits, if it or the next decimal of that length reads back: the closer one if
both do. -/
def cutAt? (x : Binary64) (k : Nat) : Option Decimal :=
  let step := Nat.pow 10 k
  let low : Decimal := ⟨x.expansion / step, k - 1074⟩
  let high : Decimal := ⟨x.expansion / step + 1, k - 1074⟩
  let preferHigh := decide (step ≤ 2 * (x.expansion % step))
  let first := if preferHigh then high else low
  let second := if preferHigh then low else high
  if x.isReadBackBy first then some first else if x.isReadBackBy second then some second else none

/-- The first cut that reads back, dropping ever fewer digits. -/
def firstCut (x : Binary64) : Nat → Decimal
  | 0 => ⟨x.expansion, -1074⟩
  | k + 1 => (x.cutAt? (k + 1)).getD (x.firstCut k)

/-- The shortest decimal that reads back as the absolute value of a finite number, the closest of those. -/
def shortest (x : Binary64) : Decimal := (x.firstCut (decimalLength x.expansion - 1)).stripZeros

end Binary64
end LoxLexer
