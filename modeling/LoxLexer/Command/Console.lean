import LoxLexer.Command.Run
/-!
# The command at a console

At a console a run happens step by step: a line is answered before the next one is asked for, and a text that is not
taken ends the run at once.  What a console can do is given by its actions (`Console`), in any monad, and the command
is written with them.
-/
namespace LoxLexer

structure Console (m : Type → Type) where
  /-- Says a notice on the standard error. -/
  say : Notice → m Unit
  /-- Puts a text out on the standard output; the reason why it is not taken, if so. -/
  put : String → m (Option String)
  logSetting : m (Option String)
  readFile : String → m (Except String ByteArray)
  /-- Repeats a turn, which is given the action that reads its line, until it gives an exit code. -/
  takeTurns : (m (Except String (Option ByteArray)) → m (Option Nat)) → m Nat

namespace Console

variable {m : Type → Type} [Monad m] (c : Console m)

/-- Puts out emissions in order, up to the first text that is not taken; the reason why it is not. -/
def emit : List Emission → m (Option String)
  | [] => return none
  | .notice n :: rest => do
    c.say n
    emit rest
  | .output text :: rest => do
    match ← c.put text with
    | some cause => return some cause
    | none => emit rest

/-- Puts out emissions; if a text is not taken, says so, and gives the exit code of a run that ends here. -/
def deliver (emissions : List Emission) : m (Option Nat) := do
  match ← c.emit emissions with
  | none => return none
  | some cause =>
    let failure : Failure := .unwritableOutput cause
    c.say (.failure failure)
    return some failure.exitCode

/-- A turn of the prompt; the exit code if the run ends with it. -/
def takeTurn (f : LogFilter) (readLine : m (Except String (Option ByteArray))) : m (Option Nat) := do
  match ← c.deliver [prompt] with
  | some code => return some code
  | none =>
    let t := turn f (← readLine)
    return (← c.deliver t.emissions).or t.exitCode?

/-- What the command does, given its arguments; the exit code. -/
def command (arguments : List String) : m Nat := do
  match readArguments arguments with
  | .error stop =>
    let _ ← c.emit stop.report.emissions
    return stop.report.exitCode
  | .ok options =>
    let f := LogFilter.choose options.verbose (← c.logSetting)
    match options.path with
    | some path =>
      let r := runFile f path (← c.readFile path)
      return (← c.deliver r.emissions).getD r.exitCode
    | none => c.takeTurns (c.takeTurn f)

end Console
end LoxLexer
