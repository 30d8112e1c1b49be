import LoxLexer.Number.Shortest
/-!
# The text of a number

A finite number is written with the fewest digits that read back.  From `10 ^ -4` up to but without `10 ^ 16`, and
for zero, it is written positionally, with at least one digit behind the point; any other value has one digit before
the point, no point without a further digit, and a power of ten: `1e16`, `2.5e-7`.
-/
namespace LoxLexer

namespace Decimal

/-- Without a power of ten: zeros fill up to the point, and one zero follows it if nothing else does. -/
def positional (d : Decimal) : List Char :=
  match d.exponent with
  | .ofNat e => digits d.coefficient ++ List.replicate e '0' ++ ['.', '0']
  | .negSucc e =>
    let ds := digits d.coefficient
    let padded := List.replicate (e + 2 - ds.length) '0' ++ ds
    let places := padded.length - (e + 1)
    padded.take places ++ '.' :: padded.drop places

/-- With a power of ten: the point follows the first digit, if there are more. -/
def scientific (d : Decimal) : List Char :=
  let ds := digits d.coefficient
  let fraction := ds.drop 1
  let power := d.exponent + fraction.length
  ds.take 1 ++ (if fraction.isEmpty then [] else '.' :: fraction) ++
    'e' :: (if power < 0 then ['-'] else []) ++ digits power.natAbs

end Decimal

namespace Binary64

/-- Zero and the absolute values from `10 ^ -4` to below `10 ^ 16`. -/
def isPositional (x : Binary64) : Bool :=
  decide (x.units = 0 ∨ 1 <<< 1074 ≤ 10000 * x.units ∧ x.units < 10000000000000000 <<< 1074)

/-- The text of a number, as its characters. -/
def textChars (x : Binary64) : List Char :=
  if x.isNaN then ['N', 'a', 'N']
  else
    (if x.isNegative then ['-'] else []) ++
      (if !x.isFinite then ['i', 'n', 'f']
       else if x.isPositional then x.shortest.positional
       else x.shortest.scientific)

def text (x : Binary64) : String := String.ofList x.textChars

end Binary64
end LoxLexer
