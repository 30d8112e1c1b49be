import LoxLexer.Scan
/-!
# Sessions

In a session several scans, and reports from elsewhere, share one list of diagnostics.  A step only ever adds to its
end; what a step adds and how long the list is afterwards is its reply.
-/
namespace LoxLexer

/-- What can be done to a shared list of diagnostics. -/
inductive SessionStep
  | scan (text : String)
  | report (diagnostic : Diagnostic)

/-- What a step added, the length of the list after it and, of a scan, the tokens. -/
structure SessionReply where
  added : List Diagnostic
  total : Nat
  tokens : Option (List Token)
deriving DecidableEq

namespace SessionStep

/-- The shared list after a step, and the tokens of a scan. -/
def apply (kept : Array Diagnostic) : SessionStep → Array Diagnostic × Option (List Token)
  | .scan text =>
    let p := scanWith (fun (kept : Array Diagnostic) d => kept.push d) kept text
    (p.reported, some p.tokens.toList)
  | .report diagnostic => (kept.push diagnostic, none)

end SessionStep

/-- The replies to the steps of a session that finds `kept` in the shared list. -/
def sessionFrom (kept : Array Diagnostic) : List SessionStep → List SessionReply
  | [] => []
  | step :: rest =>
    let (after, tokens) := step.apply kept
    ⟨after.toList.drop kept.size, after.size, tokens⟩ :: sessionFrom after rest

/-- The replies to the steps of a session that starts with no diagnostics. -/
def session (steps : List SessionStep) : List SessionReply := sessionFrom #[] steps

end LoxLexer
