import MessageMapping.Definition.NodeType
import MessageMapping.Json.Basic
import MessageMapping.Operator

/-!
# Build errors

Why a definition gives no expression.
-/

namespace MessageMapping

/-- Why a JSON value is no definition. -/
inductive ShapeError
  /-- A value is of the wrong JSON type. -/
  | wrongType
  /-- An array form has too few or too many elements. -/
  | wrongLength
  | missingField (name : String)
  | unknownType (name : String)
  | unknownOperator (symbol : String)
  deriving DecidableEq, Repr

namespace ShapeError

/-- A name between backticks. -/
def ticked (name : String) : String :=
  "`" ++ name ++ "`"

/-- The text for a name that is none of the known ones. -/
def unknown (name : String) (known : List String) : String :=
  "unknown variant " ++ ticked name ++ ", expected one of " ++ ", ".intercalate (known.map ticked)

def message : ShapeError → String
  | wrongType => "<type>"
  | wrongLength => "<length>"
  | missingField name => "missing field " ++ ticked name
  | unknownType name => unknown name (NodeType.all.map NodeType.name)
  | unknownOperator symbol => unknown symbol (Operator.all.map Operator.symbol)

end ShapeError

inductive BuildError
  | noOperands
  | operatorMismatch (operands operators : Nat)
  | tooDeep (limit : Nat)
  /-- The text is no JSON. -/
  | notJson (fault : Json.Fault)
  /-- The text is JSON, but no definition. -/
  | badShape (error : ShapeError)
  deriving DecidableEq, Repr

def BuildError.message : BuildError → String
  | noOperands => "arithmetic expression requires at least one operand"
  | operatorMismatch operands operators =>
    "mismatch of arithmetic operators to operands: " ++ toString operators ++ " operators, " ++
      toString operands ++ " operands"
  | tooDeep limit => "expression tree exceeds the maximum depth of " ++ toString limit
  | notJson fault => "invalid expression definition: " ++ fault.message
  | badShape error => "invalid expression definition: " ++ error.message

end MessageMapping
