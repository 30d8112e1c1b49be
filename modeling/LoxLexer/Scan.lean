import LoxLexer.Piece
import LoxLexer.Diagnostic
import LoxLexer.Text.Source
import LoxLexer.Token.Basic
/-!
# Scanning

A scan goes through the pieces of a text once.  Each comes to nothing, to one token or to one lexical error
(`Piece.outcome`), and a last token marks the end.  Three channels are filled on the way: the tokens, the events a log
may show, and the diagnostics, which go one by one to a **reporter** as they are found.  A reporter is any function
that takes a diagnostic into its own state; scanning never looks at that state, and an error stops nothing.

`scan` is the scan whose reporter keeps the diagnostics in a list.
-/
namespace LoxLexer

inductive Outcome
  | nothing
  | token (token : Token)
  | error (line : Nat) (error : LexError)
deriving DecidableEq

/-- What a piece of `source` comes to.  A token is on the line where its piece starts, an error on the line where its
piece stops: only a string can span lines, and one without a closing quote runs to the end of the text. -/
def Piece.outcome (source : Source) (piece : Piece) : Outcome :=
  let lexeme := source.slice piece.start.offset piece.stop.offset
  let token (kind : TokenKind) (literal : Option Literal) : Outcome :=
    .token ⟨kind, lexeme, literal, piece.start.line⟩
  match piece.shape with
  | .blank => .nothing
  | .comment => .nothing
  | .operator op => token (.operator op) none
  | .word => token (.ofWord lexeme) none
  | .string => token .string (some (.string (source.slice (piece.start.offset + 1) (piece.stop.offset - 1))))
  | .number =>
    let value := (Decimal.ofNumeral lexeme.toList).toBinary64
    if value.isFinite then token .number (some (.number value)) else .error piece.stop.line .malformedNumber
  | .openString => .error piece.stop.line .unterminatedString
  | .bad c => .error piece.stop.line (.unexpectedCharacter c)

/-- What a log may show of a scan. -/
inductive Event
  | token (kind : TokenKind) (lexeme : String) (line : Nat)
  | lexicalError (line : Nat) (error : LexError)
  | finished (tokens errors : Nat)
deriving DecidableEq

abbrev Reporter (σ : Type u) := σ → Diagnostic → σ

/-- A scan under way: what it has produced so far, and the state of its reporter. -/
structure Progress (σ : Type u) where
  tokens : Array Token
  events : Array Event
  reported : σ

namespace Progress

variable {σ : Type u}

def accept (p : Progress σ) (t : Token) : Progress σ :=
  { p with tokens := p.tokens.push t, events := p.events.push (.token t.kind t.lexeme t.line) }

def reject (report : Reporter σ) (p : Progress σ) (line : Nat) (error : LexError) : Progress σ :=
  { p with events := p.events.push (.lexicalError line error), reported := report p.reported ⟨line, "", error⟩ }

def step (report : Reporter σ) (p : Progress σ) : Outcome → Progress σ
  | .nothing => p
  | .token t => p.accept t
  | .error line error => p.reject report line error

end Progress

/-- The token that ends every scan. -/
def endToken (line : Nat) : Token := ⟨.eof, "", none, line⟩

/-- Scans a text, reporting to `report` from its state `s` on. -/
def scanWith {σ : Type u} (report : Reporter σ) (s : σ) (text : String) : Progress σ :=
  let source := Source.ofString text
  let pieces := piecesOf source.chars
  let scanned := pieces.foldl (fun p piece => p.step report (piece.outcome source)) (Progress.mk #[] #[] s)
  scanned.accept (endToken (endOfPieces .first pieces).line)

structure Scan where
  tokens : List Token
  diagnostics : List Diagnostic
  events : List Event
deriving DecidableEq

def Scan.hadError (s : Scan) : Bool := !s.diagnostics.isEmpty

/-- Scans a text, keeping its diagnostics; the last event counts the tokens and the errors. -/
def scan (text : String) : Scan :=
  let p := scanWith (fun (kept : Array Diagnostic) d => kept.push d) #[] text
  { tokens := p.tokens.toList
    diagnostics := p.reported.toList
    events := (p.events.push (.finished p.tokens.size p.reported.size)).toList }

end LoxLexer
