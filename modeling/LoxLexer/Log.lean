import LoxLexer.Scan
import LoxLexer.Text.Quoted
/-!
# The log

A log shows the events of scans, and that a file is about to be scanned.  Each entry has a level and a target, and is
one line: level, target, message, and fields that are named and quoted so that no lexeme can pass for another entry.

Which entries are shown is up to a `LogFilter`, chosen once (`LogFilter.choose`): by the setting if there is one that
reads as a filter, otherwise by whether the run is to be verbose.
-/
namespace LoxLexer

/-- The levels at which anything is logged, the more detailed one last. -/
inductive LogLevel
  | debug
  | trace
deriving DecidableEq

def LogLevel.name : LogLevel → String
  | debug => "DEBUG"
  | trace => "TRACE"

/-- The text of a lexical error in a log, with the character it is about. -/
def LexError.logText (e : LexError) : String :=
  e.name ++ (e.character?.map fun c => "(" ++ quoted '\'' [c] ++ ")").getD ""

namespace Event

/-- Tokens are a detail, errors and the summary are not. -/
def level : Event → LogLevel
  | token .. => .trace
  | lexicalError .. => .debug
  | finished .. => .debug

def message : Event → String
  | token .. => "token"
  | lexicalError .. => "lexical error"
  | finished .. => "finished scanning source"

/-- The named values of an event, in the order in which a log line shows them. -/
def fields : Event → List (String × String)
  | token kind lexeme line => [("kind", kind.name), ("lexeme", quoted '"' lexeme.toList), ("line", toString line)]
  | lexicalError line error => [("line", toString line), ("error", error.logText)]
  | finished tokens errors => [("tokens", toString tokens), ("errors", toString errors)]

end Event

/-- What can stand in a log. -/
inductive LogEntry
  /-- The file at `path` is about to be read. -/
  | scanningFile (path : String)
  | event (event : Event)
deriving DecidableEq

namespace LogEntry

def level : LogEntry → LogLevel
  | scanningFile _ => .debug
  | event e => e.level

def target : LogEntry → String
  | scanningFile _ => "lox"
  | event _ => "lox::scanner"

def message : LogEntry → String
  | scanningFile _ => "scanning file"
  | event e => e.message

def fields : LogEntry → List (String × String)
  | scanningFile path => [("path", path)]
  | event e => e.fields

/-- The line of an entry, without its end. -/
def text (e : LogEntry) : String :=
  e.level.name ++ " " ++ e.target ++ ": " ++ e.message ++
    String.join (e.fields.map fun (field, value) => " " ++ field ++ "=" ++ value)

end LogEntry

/-- Which entries are shown: those of the targets at or below `target`, up to a level or not at all. -/
structure LogFilter where
  scannerOnly : Bool
  level? : Option LogLevel
deriving DecidableEq

namespace LogFilter

def silent : LogFilter := ⟨false, none⟩

def shows (f : LogFilter) (e : LogEntry) : Bool :=
  let targetShown := match e with
    | .scanningFile _ => !f.scannerOnly
    | .event _ => true
  let levelShown := match f.level?, e.level with
    | none, _ => false
    | some .debug, .trace => false
    | some .debug, .debug => true
    | some .trace, _ => true
  targetShown && levelShown

/-- The names of levels, in either case; at the four coarsest there is nothing to show. -/
def levelOfName? (name : String) : Option (Option LogLevel) :=
  match name.toLower with
  | "off" | "error" | "warn" | "info" => some none
  | "debug" => some (some .debug)
  | "trace" => some (some .trace)
  | _ => none

/-- The filter that a setting spells: nothing at all, a level, or a target and a level. -/
def ofSetting? (setting : String) : Option LogFilter :=
  let (front, rest) := setting.toList.span (· ≠ '=')
  match String.ofList front, rest with
  | "", [] => some silent
  | name, [] => (levelOfName? name).map (⟨false, ·⟩)
  | "lox", _ :: name => (levelOfName? (String.ofList name)).map (⟨false, ·⟩)
  | "lox::scanner", _ :: name => (levelOfName? (String.ofList name)).map (⟨true, ·⟩)
  | _, _ => none

/-- The filter of a run: what the setting spells; without one, the less detailed level if the run is verbose, or
nothing. -/
def choose (verbose : Bool) (setting : Option String) : LogFilter :=
  (setting.bind ofSetting?).getD ⟨false, if verbose then some .debug else none⟩

end LogFilter
end LoxLexer
