import MessageMapping.Expr.Basic
import MessageMapping.Value.Json

/-!
# Definitions

A definition is an expression as it is written down: paths are text, literals are JSON, and
operands stand in a row. Building it splits the paths, groups the operands, and refuses nodes
below a fixed depth. Children are built before their parent.
-/

namespace MessageMapping

/-- An expression as it is written down. -/
inductive Definition
  | literal (value : Json)
  | absent
  | delete
  | field (path : String)
  | document (path : String)
  | metadata (key : String)
  | var (name : String)
  | arithmetic (operands : List Definition) (operators : List Operator)
  | conditional (condition consequent : Definition) (alternative : Option Definition)
  | switch (context : Option Definition) (cases : List (Case Definition))
  | not (operand : Definition)
  | apply (name : String)

namespace Definition

/-- The depth of the deepest nodes that are built; a root has depth `0`. -/
def maxDepth : Nat := 256

mutual

/-- Builds the node at this depth. -/
def buildAt (depth : Nat) (d : Definition) : Except BuildError (Expr String) :=
  if maxDepth < depth then .error (.tooDeep maxDepth)
  else
    match d with
    | literal value => .ok (.literal (Value.ofJson value))
    | absent => .ok (.literal .absent)
    | delete => .ok (.literal .delete)
    | field path => .ok (.field (Path.ofText path))
    | document path => .ok (.document (Path.ofText path))
    | metadata key => .ok (.metadata key)
    | var name => .ok (.var name)
    | arithmetic operands operators => do
      let operands ← buildList (depth + 1) operands
      return .arithmetic (← Grouping.ofLists? operands operators)
    | conditional condition consequent alternative => do
      let condition ← buildAt (depth + 1) condition
      let consequent ← buildAt (depth + 1) consequent
      match alternative with
      | some alternative => do
        let alternative ← buildAt (depth + 1) alternative
        return .conditional condition consequent (some alternative)
      | none => return .conditional condition consequent none
    | switch context cases =>
      match context with
      | some context => do
        let context ← buildAt (depth + 1) context
        return .switch (some context) (← buildCases (depth + 1) cases)
      | none => return .switch none (← buildCases (depth + 1) cases)
    | not operand => return .not (← buildAt (depth + 1) operand)
    | apply name => .ok (.apply name)

def buildList (depth : Nat) : List Definition → Except BuildError (List (Expr String))
  | [] => .ok []
  | d :: rest => do
    let e ← buildAt depth d
    return e :: (← buildList depth rest)

def buildCases (depth : Nat) :
    List (Case Definition) → Except BuildError (List (Case (Expr String)))
  | [] => .ok []
  | ⟨query, result⟩ :: rest => do
    let query ← buildAt depth query
    let result ← buildAt depth result
    return ⟨query, result⟩ :: (← buildCases depth rest)

end

/-- Builds the expression of a root node. -/
def build (d : Definition) : Except BuildError (Expr String) :=
  d.buildAt 0

end Definition

/-- A root definition and the named maps that it may apply. -/
structure MappingDefinition where
  maps : Entries Definition := []
  expr : Definition

end MessageMapping
