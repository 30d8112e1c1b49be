import LoxLexer.Token.Kind
import LoxLexer.Number.Text
/-!
# Tokens

A token is a kind, its lexeme as the source spells it, the value of a string or a number, and the line its first
character stands on.  Its text is one line of a token listing.

Tokens compare by value (`Token.eqv`): numbers as numbers, so the two zeros are equal and what is no number differs
even from itself, and strings character by character.
-/
namespace LoxLexer

/-- The value that a string or number token carries. -/
inductive Literal
  /-- The characters between the quotes, as they stand. -/
  | string (contents : String)
  | number (value : Binary64)
deriving DecidableEq

namespace Literal

def text : Literal → String
  | string contents => contents
  | number value => value.text

def eqv : Literal → Literal → Bool
  | string a, string b => decide (a = b)
  | number x, number y => x.eqv y
  | _, _ => false

/-- Two absent literals are equal, an absent and a present one are not. -/
def eqv? : Option Literal → Option Literal → Bool
  | none, none => true
  | some a, some b => a.eqv b
  | _, _ => false

end Literal

structure Token where
  kind : TokenKind
  lexeme : String
  literal : Option Literal
  line : Nat
deriving DecidableEq

namespace Token

/-- Name of the kind, lexeme and value, `nil` for no value. -/
def text (t : Token) : String :=
  t.kind.name ++ " " ++ t.lexeme ++ " " ++ (t.literal.map Literal.text).getD "nil"

def eqv (a b : Token) : Bool :=
  decide (a.kind = b.kind) && decide (a.lexeme = b.lexeme) && Literal.eqv? a.literal b.literal &&
    decide (a.line = b.line)

end Token
end LoxLexer
