/-!
# Double-precision numbers as bit patterns

A number literal is an IEEE 754 binary64 value, kept as its 64 bits: a sign, and a **magnitude** in the other 63.
Magnitudes order the absolute values: `0` is zero, `infinity` is the infinity, and everything above is no number.
A finite magnitude denotes a whole number of units of `2 ^ -1074`, the smallest positive value (`unitsOf`).

`ofRatio` is the other direction: the value nearest to a ratio of naturals, halfway cases to the even magnitude.
Magnitudes are consecutive across the powers of two, so a carry out of the fraction needs no case of its own: adding
the rounded significand to `k * binade` lands on the next power.
-/
namespace LoxLexer

/-- A double-precision number, as its bit pattern. -/
structure Binary64 where
  bits : UInt64
deriving DecidableEq

namespace Binary64

def signBit : Nat := 0x8000000000000000

/-- The magnitude of infinity; the finite values lie below it, the patterns that are no number above. -/
def infinity : Nat := 0x7ff0000000000000

/-- How many magnitudes lie between a power of two and the next; the smallest that is not subnormal. -/
def binade : Nat := 0x10000000000000

def isNegative (x : Binary64) : Bool := decide (signBit ≤ x.bits.toNat)

def magnitude (x : Binary64) : Nat := x.bits.toNat % signBit

def isNaN (x : Binary64) : Bool := decide (infinity < x.magnitude)

def isFinite (x : Binary64) : Bool := decide (x.magnitude < infinity)

/-- How many times `2 ^ -1074` a finite magnitude is worth. -/
def unitsOf (m : Nat) : Nat := if m < binade then m else (binade + m % binade) <<< (m / binade - 1)

/-- The absolute value of a finite number, in units of `2 ^ -1074`. -/
def units (x : Binary64) : Nat := unitsOf x.magnitude

/-- Equality of values: a pattern that is no number differs from everything, itself included, and the two zeros are
the same value. -/
def eqv (x y : Binary64) : Bool :=
  !x.isNaN && !y.isNaN && (decide (x = y) || decide (x.magnitude = 0 ∧ y.magnitude = 0))

end Binary64

/-- `a / b` to the nearest natural, a half to the even one. -/
def roundEven (a b : Nat) : Nat :=
  if 2 * (a % b) < b then a / b else if b < 2 * (a % b) then a / b + 1 else a / b + (a / b) % 2

namespace Binary64

/-- The values around `units / den` lie `2 ^ k` units apart; `k` is zero as long as 53 bits hold the quotient. -/
def spacing (units den : Nat) : Nat := Nat.log2 (units / den) - 52

/-- The magnitude nearest to `units / den` times `2 ^ -1074`, were there no largest one. -/
def nearestMagnitude (units den : Nat) : Nat :=
  spacing units den * binade + roundEven units (den <<< spacing units den)

/-- The value nearest to `num / den`, halfway cases to the even magnitude; infinity from halfway above the largest
finite value. -/
def ofRatio (num den : Nat) : Binary64 :=
  ⟨UInt64.ofNat (min (nearestMagnitude (num <<< 1074) den) infinity)⟩

end Binary64
end LoxLexer
