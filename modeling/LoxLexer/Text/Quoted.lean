import LoxLexer.Text.Visible
/-!
# Quoted text

Quoting puts a text on one line between two quotes.  The quote itself, the backslash, and the characters that do not
show as themselves are escaped: the commonest by a letter, the others by their number in hexadecimal.
-/
namespace LoxLexer

/-- A character inside quotes `q`. -/
def escape (q c : Char) : List Char :=
  if c = '\x00' then ['\\', '0']
  else if c = '\t' then ['\\', 't']
  else if c = '\n' then ['\\', 'n']
  else if c = '\r' then ['\\', 'r']
  else if c = q || c = '\\' then ['\\', c]
  else if isVisible c then [c]
  else ['\\', 'u', '{'] ++ Nat.toDigits 16 c.toNat ++ ['}']

def quoted (q : Char) (cs : List Char) : String := String.ofList (q :: cs.flatMap (escape q) ++ [q])

end LoxLexer
