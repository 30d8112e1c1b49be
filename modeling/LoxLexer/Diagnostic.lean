/-!
# Lexical errors and their diagnostics

There are three ways for characters to form no token.  A diagnostic ties one to a line, with a location that goes into
its text after the word `Error`; the scanner itself leaves the location empty.
-/
namespace LoxLexer

/-- Why characters form no token. -/
inductive LexError
  /-- A character with which no token starts. -/
  | unexpectedCharacter (c : Char)
  /-- The text ends before the quote that would close the string. -/
  | unterminatedString
  /-- A number too large to have a finite value. -/
  | malformedNumber
deriving DecidableEq

namespace LexError

def name : LexError → String
  | unexpectedCharacter _ => "UnexpectedCharacter"
  | unterminatedString => "UnterminatedString"
  | malformedNumber => "MalformedNumber"

def message : LexError → String
  | unexpectedCharacter _ => "Unexpected character."
  | unterminatedString => "Unterminated string."
  | malformedNumber => "Invalid number literal."

def character? : LexError → Option Char
  | unexpectedCharacter c => some c
  | _ => none

end LexError

/-- A lexical error and the line it was found on. -/
structure Diagnostic where
  line : Nat
  location : String
  error : LexError
deriving DecidableEq

namespace Diagnostic

def text (d : Diagnostic) : String :=
  "[line " ++ toString d.line ++ "] Error" ++ d.location ++ ": " ++ d.error.message

end Diagnostic
end LoxLexer
