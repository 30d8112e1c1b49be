import LoxLexer.Number.Binary64
/-!
# Decimals

A decimal is a coefficient and a power of ten.  A numeral of the source denotes one exactly (`Decimal.ofNumeral`),
and each denotes a double-precision number, the nearest one (`Decimal.toBinary64`); nothing is rounded before that.
-/
namespace LoxLexer

/-- The value `coefficient * 10 ^ exponent`. -/
structure Decimal where
  coefficient : Nat
  exponent : Int
deriving DecidableEq

namespace Decimal

/-- The value of a numeral, digits with perhaps a point and more digits: the digits without the point, as many places
down as there are digits behind it. -/
def ofNumeral (cs : List Char) : Decimal :=
  ⟨Nat.ofDigitChars 10 (cs.filter Char.isDigit) 0, -((cs.dropWhile Char.isDigit).drop 1).length⟩

/-- The double-precision number nearest to a decimal. -/
def toBinary64 (d : Decimal) : Binary64 :=
  match d.exponent with
  | .ofNat e => .ofRatio (d.coefficient * Nat.pow 10 e) 1
  | .negSucc e => .ofRatio d.coefficient (Nat.pow 10 (e + 1))

end Decimal
end LoxLexer
