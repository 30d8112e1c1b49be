import LoxLexer.Proofs.LineNumbers
/-!
# Scanning with a cursor

A scan cuts pieces off a list of characters; a reader in a machine goes over an indexed text with a cursor.  A `Walk`
is such a reader.  Its counters are machine words, it looks at most one character past the next, and it takes lexemes
as slices between positions.  What can go wrong faults: to take a character where there is none (`Walk.advance`), to
cut a slice with its ends out of order or inside a character (`Walk.slice`), to count out of a machine word
(`countUp`, `countDown`).

One `Walk.step` is one turn of a loop, so whatever state a loop goes through is a state between two steps, and a call
for one lexical unit is a run of steps from a state between units to the next one (`Walk.During`).
-/
namespace LoxLexer

/-- The first number that a machine word does not hold. -/
def wordLimit : Nat := 0x10000000000000000

inductive Fault
  /-- There is no character at the position. -/
  | noCharacter (i : Nat)
  /-- There is no text between the positions. -/
  | noSlice (i j : Nat)
  /-- A counter leaves the machine word. -/
  | overflow

def countUp (n : Nat) : Except Fault Nat := if n + 1 < wordLimit then .ok (n + 1) else .error .overflow

def countDown (n : Nat) : Except Fault Nat := if 0 < n then .ok (n - 1) else .error .overflow

/-- What a walk asks of its source, besides looking ahead. -/
inductive Access
  | character (i : Nat)
  | slice (i j : Nat)

/-- Where a walk is: between two units, in the loop that reads one, or behind the text. -/
inductive Stage
  | between
  | comment
  /-- In a string that was opened on `line`. -/
  | string (line : Nat)
  | digits
  | fraction
  | word
  | done
deriving DecidableEq

/-- In a loop that reads a unit. -/
def Stage.isInside : Stage → Bool
  | between => false
  | done => false
  | _ => true

structure Walk (σ : Type) where
  stage : Stage
  start : Nat
  current : Nat
  line : Nat
  /-- What was asked of the source so far, the latest first. -/
  asked : List Access
  progress : Progress σ

namespace Walk

variable {σ : Type}

/-- Before the first character. -/
def first (s : σ) : Walk σ := ⟨.between, 0, 0, 1, [], ⟨#[], #[], s⟩⟩

section

variable (source : Source) (w : Walk σ)

def atEnd : Bool := decide (source.chars.length ≤ w.current)

def peek : Option Char := source.chars[w.current]?

def peekNext : Except Fault (Option Char) := do return source.chars[← countUp w.current]?

/-- Goes on behind a character that it has looked at. -/
def skip : Except Fault (Walk σ) := do return { w with current := ← countUp w.current }

/-- Takes the next character, which has to be there. -/
def advance : Except Fault (Char × Walk σ) :=
  match w.peek source with
  | none => .error (.noCharacter w.current)
  | some c => do return (c, { w with current := ← countUp w.current, asked := .character w.current :: w.asked })

def feedLine : Except Fault (Walk σ) := do return { w with line := ← countUp w.line }

def slice (i j : Nat) : Except Fault (String × Walk σ) :=
  match source.slice? i j with
  | none => .error (.noSlice i j)
  | some text => .ok (text, { w with asked := .slice i j :: w.asked })

/-- Ends a unit with a token. -/
def addToken (kind : TokenKind) (literal : Option Literal) (line : Nat) : Except Fault (Walk σ) := do
  let (lexeme, w) ← w.slice source w.start w.current
  return { w with stage := .between, progress := w.progress.accept ⟨kind, lexeme, literal, line⟩ }

def addWord : Except Fault (Walk σ) := do
  let (lexeme, w) ← w.slice source w.start w.current
  w.addToken source (.ofWord lexeme) none w.line

/-- Ends a string with its closing quote, which is next. -/
def addString (line : Nat) : Except Fault (Walk σ) := do
  let w ← w.skip
  let (contents, w) ← w.slice source (← countUp w.start) (← countDown w.current)
  w.addToken source .string (some (.string contents)) line

end

section

variable (report : Reporter σ) (source : Source) (w : Walk σ)

/-- Ends a unit with an error. -/
def addError (e : LexError) : Walk σ := { w with stage := .between, progress := w.progress.reject report w.line e }

def addNumber : Except Fault (Walk σ) := do
  let (lexeme, w) ← w.slice source w.start w.current
  let value := (Decimal.ofNumeral lexeme.toList).toBinary64
  if value.isFinite then w.addToken source .number (some (.number value)) w.line
  else return w.addError report .malformedNumber

/-- A unit that starts with `c`, which has been taken. -/
def enter (c : Char) : Except Fault (Walk σ) :=
  if c = '\n' then w.feedLine
  else if isBlank c then .ok w
  else if c = '"' then .ok { w with stage := .string w.line }
  else if c.isDigit then .ok { w with stage := .digits }
  else if isWordStart c then .ok { w with stage := .word }
  else if c = '/' && w.peek source = some '/' then Walk.skip { w with stage := .comment }
  else
    match if w.peek source = some '=' then Operator.withEqual? c else none, Operator.single? c with
    | some op, _ => do (← w.skip).addToken source (.operator op) none w.line
    | none, some op => w.addToken source (.operator op) none w.line
    | none, none => .ok (w.addError report (.unexpectedCharacter c))

/-- One turn of the loop that the walk is in. -/
def step : Except Fault (Walk σ) :=
  match w.stage with
  | .between => do
    let w := { w with start := w.current }
    if w.atEnd source then
      return { ← w.addToken source .eof none w.line with stage := .done }
    else
      let (c, w) ← w.advance source
      w.enter report source c
  | .comment => if (w.peek source).any (· ≠ '\n') then w.skip else .ok { w with stage := .between }
  | .string line => do
    if (w.peek source).any (· ≠ '"') then
      let (c, w) ← w.advance source
      if c = '\n' then w.feedLine else return w
    else if w.atEnd source then return w.addError report .unterminatedString
    else w.addString source line
  | .digits => do
    if (w.peek source).any Char.isDigit then w.skip
    else if (← w.peekNext source).any Char.isDigit && w.peek source = some '.' then
      Walk.skip { w with stage := .fraction }
    else w.addNumber report source
  | .fraction => if (w.peek source).any Char.isDigit then w.skip else w.addNumber report source
  | .word => if (w.peek source).any isWordChar then w.skip else w.addWord source
  | .done => .ok w

/-- The states of a scan. -/
inductive Reachable (s : σ) : Walk σ → Prop
  | first : Reachable s (first s)
  | step {w w' : Walk σ} (h : Reachable s w) (hstep : w.step report source = .ok w') : Reachable s w'

/-- The states of the call that begins in `w`, up to the one it ends in. -/
inductive During : Walk σ → Prop
  | enter {w' : Walk σ} (hstep : w.step report source = .ok w') : During w'
  | turn {w' w'' : Walk σ} (h : During w') (hinside : w'.stage.isInside = true)
      (hstep : w'.step report source = .ok w'') : During w''

/-- How many steps are left at most. -/
def remaining : Nat :=
  match w.stage with
  | .done => 0
  | .between => 2 * (source.chars.length - w.current) + 1
  | _ => 2 * (source.chars.length - w.current) + 2

end

/-! ## Operations that do not fault -/

theorem countUp_eq {n : Nat} (h : n + 1 < wordLimit) : countUp n = .ok (n + 1) := if_pos h

theorem countDown_eq {n : Nat} (h : 0 < n) : countDown n = .ok (n - 1) := if_pos h

variable {report : Reporter σ} {source : Source} {w : Walk σ}

theorem skip_eq (h : w.current + 1 < wordLimit) : w.skip = .ok { w with current := w.current + 1 } := by
  rw [skip, countUp_eq h]; rfl

theorem peekNext_eq (h : w.current + 1 < wordLimit) : w.peekNext source = .ok source.chars[w.current + 1]? := by
  rw [peekNext, countUp_eq h]; rfl

theorem feedLine_eq (h : w.line + 1 < wordLimit) : w.feedLine = .ok { w with line := w.line + 1 } := by
  rw [feedLine, countUp_eq h]; rfl

theorem advance_eq {c : Char} (hc : w.peek source = some c) (h : w.current + 1 < wordLimit) :
    w.advance source =
      .ok (c, { w with current := w.current + 1, asked := .character w.current :: w.asked }) := by
  rw [advance, hc, countUp_eq h]; rfl

theorem slice_eq {i j : Nat} (h : i ≤ j) :
    w.slice source i j = .ok (source.slice i j, { w with asked := .slice i j :: w.asked }) := by
  rw [slice, source.slice?_eq_some_slice h]

theorem addToken_eq (h : w.start ≤ w.current) (kind : TokenKind) (literal : Option Literal) (line : Nat) :
    w.addToken source kind literal line =
      .ok { w with
        stage := .between
        asked := .slice w.start w.current :: w.asked
        progress := w.progress.accept ⟨kind, source.slice w.start w.current, literal, line⟩ } := by
  rw [addToken, slice_eq h]; rfl

end Walk
end LoxLexer
