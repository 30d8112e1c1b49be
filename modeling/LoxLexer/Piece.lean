import LoxLexer.Token.Kind
/-!
# Cutting a text into pieces

A piece is one lexical unit: what is cut off the front of the text at once.  Its shape follows from the first
character and, for an operator, a comment or a number's fraction, from at most two more; its length is how far the
characters of that shape go.  `Shape.cut` decides both, and `piecesFrom` cuts until nothing is left, so the pieces of
a text follow each other without a gap.

A piece knows where it starts and where it stops: how many characters lie before, and on which line.  Every line feed
of the text counts once, in whichever piece it stands.
-/
namespace LoxLexer

inductive Shape
  /-- A space, tab, carriage return or line feed. -/
  | blank
  /-- Two slashes and the rest of the line. -/
  | comment
  | operator (op : Operator)
  /-- A quoted text with its two quotes; it may span lines. -/
  | string
  /-- A quote that nothing closes, and all that follows it. -/
  | openString
  /-- Digits, and perhaps a point and more digits. -/
  | number
  /-- Letters, digits and underscores, not starting with a digit. -/
  | word
  /-- A character that starts nothing. -/
  | bad (c : Char)
deriving DecidableEq

def isBlank (c : Char) : Bool := c = ' ' || c = '\t' || c = '\r' || c = '\n'

def isWordStart (c : Char) : Bool := c.isAlpha || c = '_'

def isWordChar (c : Char) : Bool := c.isAlphanum || c = '_'

/-- How many characters at the front satisfy `p`. -/
def runLength (p : Char → Bool) (cs : List Char) : Nat := (cs.takeWhile p).length

namespace Shape

/-- How many characters of a number follow its first digit.  A point belongs to it only with a digit behind. -/
def numberLength (cs : List Char) : Nat :=
  let whole := runLength Char.isDigit cs
  match cs.drop whole with
  | '.' :: d :: rest => if d.isDigit then whole + 2 + runLength Char.isDigit rest else whole
  | _ => whole

/-- The string that a quote in front of `cs` opens: up to the next quote, or to the end of the text without one. -/
def cutString (cs : List Char) : Shape × Nat :=
  let contents := runLength (· ≠ '"') cs
  match cs.drop contents with
  | [] => (openString, contents)
  | _ :: _ => (string, contents + 1)

/-- A comment, an operator or a bad character: what a character that is no blank, quote, digit or letter starts in
front of `cs`.  Of two operators the longer one wins. -/
def cutMark (c : Char) (cs : List Char) : Shape × Nat :=
  if c = '/' && cs.head? = some '/' then (comment, runLength (· ≠ '\n') cs)
  else
    match if cs.head? = some '=' then Operator.withEqual? c else none, Operator.single? c with
    | some op, _ => (operator op, 1)
    | none, some op => (operator op, 0)
    | none, none => (bad c, 0)

/-- The shape of the piece at the front of `c :: cs`, and how many of `cs` belong to it. -/
def cut (c : Char) (cs : List Char) : Shape × Nat :=
  if isBlank c then (blank, 0)
  else if c = '"' then cutString cs
  else if c.isDigit then (number, numberLength cs)
  else if isWordStart c then (word, runLength isWordChar cs)
  else cutMark c cs

end Shape

/-- A position in a text: how many characters precede it, and the line it is on. -/
structure Place where
  offset : Nat
  line : Nat
deriving DecidableEq

namespace Place

def first : Place := ⟨0, 1⟩

def advance (p : Place) (cs : List Char) : Place := ⟨p.offset + cs.length, p.line + cs.count '\n'⟩

end Place

/-- One lexical unit of a text, from the place of its first character to the place behind its last. -/
structure Piece where
  shape : Shape
  start : Place
  stop : Place
deriving DecidableEq

/-- The pieces of `cs`, which starts at `place`: what `Shape.cut` cuts off, then the pieces of what is left. -/
def piecesFrom (place : Place) : List Char → List Piece
  | [] => []
  | c :: cs =>
    let (shape, more) := Shape.cut c cs
    let stop := place.advance (c :: cs.take more)
    ⟨shape, place, stop⟩ :: piecesFrom stop (cs.drop more)
termination_by cs => cs.length
decreasing_by simp only [List.length_drop, List.length_cons]; omega

/-- `piecesFrom` behind the pieces already cut, in constant stack space. -/
def collectPieces (done : Array Piece) (place : Place) : List Char → Array Piece
  | [] => done
  | c :: cs =>
    let (shape, more) := Shape.cut c cs
    let stop := place.advance (c :: cs.take more)
    collectPieces (done.push ⟨shape, place, stop⟩) stop (cs.drop more)
termination_by cs => cs.length
decreasing_by simp only [List.length_drop, List.length_cons]; omega

theorem toList_collectPieces (done : Array Piece) (place : Place) (cs : List Char) :
    (collectPieces done place cs).toList = done.toList ++ piecesFrom place cs := by
  fun_induction collectPieces done place cs with
  | case1 done place => simp [piecesFrom]
  | case2 done place c cs shape more hcut stop ih => rw [ih, piecesFrom, hcut]; simp [stop]

def piecesOf (cs : List Char) : List Piece := (collectPieces #[] .first cs).toList

theorem piecesOf_eq (cs : List Char) : piecesOf cs = piecesFrom .first cs := toList_collectPieces #[] .first cs

/-- The place behind the last piece of a text that starts at `place`. -/
def endOfPieces (place : Place) (pieces : List Piece) : Place := (pieces.getLast?.map Piece.stop).getD place

end LoxLexer
