/-!
# Command-line arguments

At most one path, a flag for a verbose run, and the two requests that end a command line at once: for its help and for
its version.  Arguments are read from left to right, and the first request or fault decides; behind `--` everything is
a path.  Long flags are spelt out and take no value; short ones may share a dash.
-/
namespace LoxLexer

/-- What the arguments read so far ask for. -/
structure Options where
  path : Option String
  verbose : Bool
deriving DecidableEq

/-- Why a command line is read no further. -/
inductive Stop
  | help
  | version
  /-- An unknown flag, a flag that is repeated or has a value, a second path or an empty one. -/
  | misuse
deriving DecidableEq

namespace Options

def empty : Options := ⟨none, false⟩

def setVerbose (o : Options) : Except Stop Options :=
  if o.verbose then .error .misuse else .ok { o with verbose := true }

def setPath (o : Options) (path : String) : Except Stop Options :=
  if path.isEmpty || o.path.isSome then .error .misuse else .ok { o with path := some path }

/-- The letters behind one dash. -/
def readLetters (o : Options) : List Char → Except Stop Options
  | [] => .ok o
  | 'v' :: rest => o.setVerbose.bind (·.readLetters rest)
  | 'h' :: _ => .error .help
  | 'V' :: _ => .error .version
  | _ :: _ => .error .misuse

/-- The word behind two dashes. -/
def readWord (o : Options) (word : String) : Except Stop Options :=
  match word with
  | "verbose" => o.setVerbose
  | "help" => .error .help
  | "version" => .error .version
  | _ => .error .misuse

/-- One argument; a dash alone is a path. -/
def readArgument (o : Options) (argument : String) : Except Stop Options :=
  match argument.toList with
  | '-' :: '-' :: word => o.readWord (String.ofList word)
  | '-' :: letter :: rest => o.readLetters (letter :: rest)
  | _ => o.setPath argument

def readAll (o : Options) : List String → Except Stop Options
  | [] => .ok o
  | "--" :: paths => paths.foldlM setPath o
  | argument :: rest => (o.readArgument argument).bind (·.readAll rest)

end Options

def readArguments (arguments : List String) : Except Stop Options := Options.empty.readAll arguments

end LoxLexer
