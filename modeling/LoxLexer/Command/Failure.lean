/-!
# How a run fails

A run fails because something could not be read or written, and then carries the system's reason, or because the
source it read has lexical errors.  The text is what the user is told; the exit code is 74 for reading and writing and
65 for the source.
-/
namespace LoxLexer

/-- Why a run did not succeed. -/
inductive Failure
  | unreadableFile (path cause : String)
  | unreadableInput (cause : String)
  | unwritableOutput (cause : String)
  | lexicalErrors
deriving DecidableEq

namespace Failure

def text : Failure → String
  | unreadableFile path _ => "Could not read file '" ++ path ++ "'."
  | unreadableInput _ => "Could not read from standard input."
  | unwritableOutput _ => "Could not write output."
  | lexicalErrors => "Source contains lexical errors."

def cause? : Failure → Option String
  | unreadableFile _ cause => some cause
  | unreadableInput cause => some cause
  | unwritableOutput cause => some cause
  | lexicalErrors => none

def exitCode : Failure → Nat
  | lexicalErrors => 65
  | _ => 74

end Failure
end LoxLexer
