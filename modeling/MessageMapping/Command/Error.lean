import MessageMapping.BuildError
import MessageMapping.EvalError

/-!
# Command errors

Why a command fails, apart from misuse of its arguments.
-/

namespace MessageMapping

inductive CommandError
  | build (cause : BuildError)
  | eval (cause : EvalError)
  /-- A file or the input cannot be read as text. -/
  | unreadable
  | invalidPair (argument : String)
  | missingMapping
  | unknownTopic (name : String)
  deriving DecidableEq

def CommandError.message : CommandError → String
  | build cause => "Invalid mapping: " ++ cause.message
  | eval cause => "Evaluation error: " ++ cause.message
  | unreadable => "IO error: <io>"
  | invalidPair argument => "Invalid key=value pair: '" ++ argument ++ "'"
  | missingMapping => "No mapping given: pass --expr or --file"
  | unknownTopic name =>
    "Unknown category: '" ++ name ++ "'\nRun 'mapexpr docs' to see available categories."

end MessageMapping
