import MessageMapping.Lazy.Message
import MessageMapping.Mapping

/-!
# Evaluating on messages that are read on demand

The evaluator of expressions with the batch as its state: what is found in a message while one
subexpression is evaluated is there for all that come later, also after an error. It is `Expr.eval`
construct by construct; only the accessors differ.
-/

namespace MessageMapping

/-- A computation in the scope of a value, which may read messages of a batch. -/
abbrev Reading (α : Type) :=
  ExceptT EvalError (ReaderT (Option Value) (StateM LazyBatch)) α

namespace Reading

/-- The whole document of a message. -/
def root (index : Nat) : Reading Value :=
  ExceptT.mk (modifyGet fun b => b.readDocument index)

def document (index : Nat) (path : Path) : Reading Value := do
  match (← root index).get? path with
  | some v => pure v
  | none => throw (.undefinedField path.text)

def field (index : Nat) (path : Path) : Reading Value := do
  match ← read with
  | some scope =>
    match scope.get? path with
    | some v => pure v
    | none => throw (.undefinedField path.text)
  | none => document index path

def metadata (index : Nat) (key : String) : Reading Value := do
  (← get).metadata index key

def var (vars : Entries Value) (name : String) : Reading Value :=
  match vars.get? name with
  | some v => pure v
  | none => throw (.undefinedVariable name)

end Reading

namespace Expr

variable {ν : Type}

mutual

/-- Evaluates an expression for the message at an index; `call` evaluates the map of a name. -/
def evalLazy (index : Nat) (vars : Entries Value) (call : ν → Reading Value) :
    Expr ν → Reading Value
  | literal value => pure value
  | field path => .field index path
  | document path => .document index path
  | metadata key => .metadata index key
  | var name => .var vars name
  | arithmetic operands => (evalOperandsLazy index vars call operands).run
  | conditional condition consequent alternative => do
    let holds ← ExceptT.adapt .ifCondition do
      (← evalLazy index vars call condition).expectBool
    if holds then evalLazy index vars call consequent
    else
      match alternative with
      | some alternative => evalLazy index vars call alternative
      | none => pure .absent
  | switch context cases =>
    match context with
    | some context => do
      let scope ← evalLazy index vars call context
      withReader (fun _ => some scope) (evalCasesLazy index vars call 0 cases)
    | none => evalCasesLazy index vars call 0 cases
  | not operand => do
    pure (.bool !(← (← evalLazy index vars call operand).expectBool))
  | apply name => call name

def evalCasesLazy (index : Nat) (vars : Entries Value) (call : ν → Reading Value) (place : Nat) :
    List (Case (Expr ν)) → Reading Value
  | [] => pure .absent
  | ⟨query, result⟩ :: rest => do
    let holds ← ExceptT.adapt (.matchCase place) do
      (← evalLazy index vars call query).expectBool
    if holds then evalLazy index vars call result
    else evalCasesLazy index vars call (place + 1) rest

def evalOperandsLazy (index : Nat) (vars : Entries Value) (call : ν → Reading Value) :
    Grouping (Expr ν) → Grouping (Reading Value)
  | .operand e => .operand (evalLazy index vars call e)
  | .chain first rest =>
    .chain (evalOperandsLazy index vars call first) (evalRestLazy index vars call rest)

def evalRestLazy (index : Nat) (vars : Entries Value) (call : ν → Reading Value) :
    List (Operator × Grouping (Expr ν)) → List (Operator × Grouping (Reading Value))
  | [] => []
  | (op, g) :: rest => (op, evalOperandsLazy index vars call g) :: evalRestLazy index vars call rest

end

def runLazy (index : Nat) (vars : Entries Value) (maps : Entries (Expr String)) :
    Nat → Expr String → Reading Value
  | 0 => evalLazy index vars fun name =>
    match maps.get? name with
    | some _ => throw (.recursionLimit name)
    | none => throw (.undefinedMap name)
  | budget + 1 => evalLazy index vars fun name =>
    match maps.get? name with
    | some body => runLazy index vars maps budget body
    | none => throw (.undefinedMap name)

end Expr

/-- The outcome of the mapping, and the batch with what the run has found in it. -/
def Mapping.execLazy (mapping : Mapping) (index : Nat) (vars : Entries Value) (b : LazyBatch) :
    Except EvalError Value × LazyBatch :=
  mapping.root.runLazy index vars mapping.maps Expr.maxApplications none b

end MessageMapping
