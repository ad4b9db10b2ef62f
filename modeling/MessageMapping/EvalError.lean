import MessageMapping.Value.Text

/-!
# Evaluation errors

Why an expression has no value. Errors pass through unchanged, except that a failed condition and
a failed case query say where they stood.
-/

namespace MessageMapping

inductive EvalError
  /-- A path leads nowhere in the scoped value or the document. -/
  | undefinedField (path : String)
  | undefinedMetadata (key : String)
  | undefinedVariable (name : String)
  | undefinedMap (name : String)
  /-- Named maps apply each other too deeply. -/
  | recursionLimit (name : String)
  /-- The batch has no message at this index. -/
  | undefinedMessage (index : Nat)
  /-- The content of a message is no JSON document. -/
  | invalidDocument (fault : Json.Fault)
  /-- An operator or a condition got a value of the wrong kind. -/
  | typeMismatch (expected found : Kind) (text : String)
  | divideByZero
  | ifCondition (cause : EvalError)
  | matchCase (index : Nat) (cause : EvalError)
  deriving DecidableEq, Inhabited

namespace EvalError

/-- The mismatch that reports this value. -/
def mismatch (expected : Kind) (found : Value) : EvalError :=
  .typeMismatch expected found.kind found.text

def message : EvalError → String
  | undefinedField path => "field '" ++ path ++ "' was undefined"
  | undefinedMetadata key => "metadata value '" ++ key ++ "' was undefined"
  | undefinedVariable name => "variable '" ++ name ++ "' was undefined"
  | undefinedMap name => "map '" ++ name ++ "' was not found"
  | recursionLimit name => "map '" ++ name ++ "' exceeded the maximum recursion depth"
  | undefinedMessage index => "message index " ++ toString index ++ " was out of bounds"
  | invalidDocument fault => "failed to parse message as JSON: " ++ fault.message
  | typeMismatch expected found text =>
    "expected " ++ expected.name ++ " value, found " ++ found.name ++ ": " ++ text
  | divideByZero => "attempted to divide by zero"
  | ifCondition cause => "failed to check if condition: " ++ cause.message
  | matchCase index cause =>
    "failed to check match case " ++ toString index ++ ": " ++ cause.message

/-- The error that this one wraps. -/
def cause? : EvalError → Option EvalError
  | ifCondition cause => some cause
  | matchCase _ cause => some cause
  | _ => none

end EvalError

end MessageMapping
