import LoxLexer.Command.Arguments
import LoxLexer.Command.Failure
import LoxLexer.Log
import LoxLexer.Text.Lines
/-!
# Runs

A run is a function of its command line and of what it finds around it (`Surroundings`).  Its report is an exit code
and what it emits, in order: texts for the standard output, and notices, which go to the standard error.

With a path, the file is scanned as one text.  Without one, the standard input is scanned line by line behind a prompt,
each line as a text of its own (`turn`), and lexical errors do not end the run.  A scan emits what the log shows of it,
then its tokens one by one, then its diagnostics.

The standard output takes a text as a whole or not at all.  One that fails ends a run at the first text that it does
not take (`RunReport.refused`), so the diagnostics that would follow are not said; what comes before is.
-/
namespace LoxLexer

/-- What goes to the standard error; each notice ends with a line end. -/
inductive Notice
  | log (entry : LogEntry)
  | diagnostic (diagnostic : Diagnostic)
  | failure (failure : Failure)
  | usage
deriving DecidableEq

def versionText : String := "lox 0.0.0\n"

def usageText : String := "Usage: lox [OPTIONS] [PATH]"

def helpText : String :=
  "Tokenize Lox source, from a file or an interactive prompt\n\n" ++ usageText ++ "\n\n" ++
  "Arguments:\n" ++
  "  [PATH]  Script to scan; starts the prompt when omitted\n\n" ++
  "Options:\n" ++
  "  -v, --verbose  Enable debug logging\n" ++
  "  -h, --help     Print help\n" ++
  "  -V, --version  Print version\n"

/-- The text of a notice, without its line end. -/
def Notice.text : Notice → String
  | log entry => entry.text
  | diagnostic d => d.text
  | failure f => f.text
  | usage => usageText

inductive Emission
  | output (text : String)
  | notice (notice : Notice)
deriving DecidableEq

namespace Emission

def output? : Emission → Option String
  | output text => some text
  | notice _ => none

def notice? : Emission → Option Notice
  | output _ => none
  | notice n => some n

end Emission

def LogFilter.emissions (f : LogFilter) (entries : List LogEntry) : List Emission :=
  (entries.filter f.shows).map fun entry => .notice (.log entry)

/-- What a scan puts out: its log, its tokens, each a text of its own, and its diagnostics. -/
def Scan.emissions (s : Scan) (f : LogFilter) : List Emission :=
  f.emissions (s.events.map .event) ++ (s.tokens.map fun t => .output (t.text ++ "\n")) ++
    s.diagnostics.map fun d => .notice (.diagnostic d)

/-- What a run finds around it. -/
structure Surroundings where
  /-- The bytes of the file at a path, or why they cannot be read. -/
  file : String → Except String ByteArray
  input : ByteArray
  logSetting : Option String
  /-- Why the standard output fails, if it does. -/
  outputFault : Option String
  /-- How many texts it takes before it fails. -/
  outputRoom : Nat := 0

/-- The texts among emissions. -/
def textsOf (emissions : List Emission) : List String := emissions.filterMap Emission.output?

/-- What is put out up to the first text that an output with `room` for texts does not take. -/
def taken : Nat → List Emission → List Emission
  | _, [] => []
  | room, .notice n :: rest => .notice n :: taken room rest
  | 0, .output _ :: _ => []
  | room + 1, .output text :: rest => .output text :: taken room rest

structure RunReport where
  exitCode : Nat
  emissions : List Emission
deriving DecidableEq

namespace RunReport

def output (r : RunReport) : String := String.join (textsOf r.emissions)

def notices (r : RunReport) : List Notice := r.emissions.filterMap Emission.notice?

def failed (f : Failure) (emitted : List Emission) : RunReport := ⟨f.exitCode, emitted ++ [.notice (.failure f)]⟩

/-- What becomes of a run whose output fails once it has taken `room` texts. -/
def refused (r : RunReport) (room : Nat) (cause : String) : RunReport :=
  if (textsOf r.emissions).length ≤ room then r else failed (.unwritableOutput cause) (taken room r.emissions)

end RunReport

def decodeText (bytes : ByteArray) : Except String String :=
  match String.fromUTF8? bytes with
  | some text => .ok text
  | none => .error "stream did not contain valid UTF-8"

/-- Scans a file whose bytes, or the reason why there are none, are known. -/
def runFile (f : LogFilter) (path : String) (contents : Except String ByteArray) : RunReport :=
  let opening := f.emissions [.scanningFile path]
  match contents.bind decodeText with
  | .error cause => .failed (.unreadableFile path cause) opening
  | .ok text =>
    let s := scan text
    ⟨if s.hadError then Failure.lexicalErrors.exitCode else 0, opening ++ s.emissions f⟩

def prompt : Emission := .output "> "

/-- A turn of the prompt: what it puts out behind `> `, and the exit code if the run ends with it. -/
structure Turn where
  emissions : List Emission
  exitCode? : Option Nat
deriving DecidableEq

/-- The turn that answers a line, or no line at the end of the input, or the reason why there is none. -/
def turn (f : LogFilter) (line : Except String (Option ByteArray)) : Turn :=
  match line.bind (Option.mapM decodeText) with
  | .error cause =>
    let failure : Failure := .unreadableInput cause
    ⟨[.notice (.failure failure)], some failure.exitCode⟩
  | .ok none => ⟨[], some 0⟩
  | .ok (some text) => ⟨(scan text).emissions f, none⟩

/-- The lines of an input as the prompt meets them, with its end. -/
def promptLines (input : ByteArray) : List (Option ByteArray) := (linesOf input).map some ++ [none]

/-- Takes the turns that are left, once `emitted` has been put out. -/
def promptFrom (f : LogFilter) (emitted : Array Emission) : List (Option ByteArray) → RunReport
  | [] => ⟨0, emitted.toList⟩
  | line :: rest =>
    let t := turn f (.ok line)
    let emitted := emitted.push prompt ++ t.emissions
    match t.exitCode? with
    | some code => ⟨code, emitted.toList⟩
    | none => promptFrom f emitted rest

def runPrompt (f : LogFilter) (input : ByteArray) : RunReport := promptFrom f #[] (promptLines input)

/-- What a run with these options does where the output is taken. -/
def runOptions (around : Surroundings) (options : Options) : RunReport :=
  let f := LogFilter.choose options.verbose around.logSetting
  match options.path with
  | some path => runFile f path (around.file path)
  | none => runPrompt f around.input

/-- What a command line that is read no further does where the output is taken. -/
def Stop.report : Stop → RunReport
  | .help => ⟨0, [.output helpText]⟩
  | .version => ⟨0, [.output versionText]⟩
  | .misuse => ⟨64, [.notice .usage]⟩

/-- What the command does, given its arguments.  That help or version are not taken is no failure. -/
def run (around : Surroundings) (arguments : List String) : RunReport :=
  match readArguments arguments, around.outputFault with
  | .ok options, none => runOptions around options
  | .ok options, some cause => (runOptions around options).refused around.outputRoom cause
  | .error stop, none => stop.report
  | .error stop, some _ => { stop.report with emissions := taken around.outputRoom stop.report.emissions }

end LoxLexer
