import LoxLexer.Main
import LoxLexer.Session
import LoxLexer.Proofs.MaximalMunch
import LoxLexer.Proofs.Rendering
import LoxLexer.Proofs.LineNumbers
import LoxLexer.Proofs.Joining
import LoxLexer.Proofs.Recovery
import LoxLexer.Proofs.Lines
import LoxLexer.Proofs.Listing
import LoxLexer.Proofs.Emissions
import LoxLexer.Proofs.Prompt
import LoxLexer.Proofs.Console
import LoxLexer.Proofs.Reporting
import LoxLexer.Proofs.Events
import LoxLexer.Proofs.Logging
import LoxLexer.Proofs.Cursor
import LoxLexer.Proofs.CursorInvariant
import LoxLexer.Proofs.CursorSafety
import LoxLexer.Proofs.Rounding
import LoxLexer.Proofs.ReadBack
import LoxLexer.Proofs.NumberText
import LoxLexer.Proofs.Boundaries
import LoxLexer.Proofs.File
import LoxLexer.Proofs.Lookahead
import LoxLexer.Proofs.NonAscii
import LoxLexer.Proofs.Readable
import LoxLexer.Proofs.Nearest
import LoxLexer.Proofs.CorrectRounding
import LoxLexer.Proofs.Numerals
import LoxLexer.Proofs.ShortestDecimal
import LoxLexer.Proofs.NumberLayout
import LoxLexer.Proofs.Juxtaposition
import LoxLexer.Proofs.Equality
import LoxLexer.Proofs.LineEndings
import LoxLexer.Proofs.ClosingQuote
import LoxLexer.Proofs.LogLines
import LoxLexer.Proofs.Slices
import LoxLexer.Proofs.Separators
import LoxLexer.Proofs.DiagnosticText
