import LoxLexer.Command.Console
/-!
# The command

The console of a process: its standard streams, its environment and its files.  The standard input is read byte by
byte, so nothing is read behind the line that is asked for.
-/
namespace LoxLexer

def settingVariable : String := "RUST_LOG"

/-- Puts a text out at once. -/
def putText (text : String) : IO (Option String) := do
  try
    let out ← IO.getStdout
    out.putStr text
    out.flush
    return none
  catch e => return some e.toString

/-- The bytes that an action reads, or why it does not. -/
def readBytes (action : IO ByteArray) : IO (Except String ByteArray) := do
  try return .ok (← action) catch e => return .error e.toString

/-- The next line of the standard input with its line feed, behind what has been read of it; empty at the end. -/
partial def nextLine (input : IO.FS.Stream) (line : ByteArray) : IO ByteArray := do
  let byte ← input.read 1
  if byte.isEmpty then return line
  else if byte.data.contains lineFeed then return line ++ byte
  else nextLine input (line ++ byte)

def readLine (input : IO.FS.Stream) : IO (Except String (Option ByteArray)) := do
  let line ← readBytes (nextLine input ByteArray.empty)
  return line.map fun bytes => if bytes.isEmpty then none else some bytes

partial def untilSome (action : IO (Option Nat)) : IO Nat := do
  match ← action with
  | some code => return code
  | none => untilSome action

def console : Console IO where
  say n := IO.eprintln n.text
  put := putText
  logSetting := IO.getEnv settingVariable
  readFile path := readBytes (IO.FS.readBinFile path)
  takeTurns turn := do untilSome (turn (readLine (← IO.getStdin)))

end LoxLexer

def main (arguments : List String) : IO UInt32 := return (← LoxLexer.console.command arguments).toUInt32
