import MessageMapping.Expr.Basic
import MessageMapping.Grouping.Run
import MessageMapping.Message

/-!
# Evaluating expressions

An expression computes a value from a scoped value, which may be missing, and from what surrounds
it: a batch, the index of the current message, and variables. Named maps are applied through a
function; `run` provides the one that looks a name up and counts how deep applications nest.
-/

namespace MessageMapping

/-- What an expression can read besides the scoped value. -/
structure Surroundings where
  batch : Batch
  index : Nat
  vars : Entries Value

/-- A computation in the scope of a value; without one, fields are read from the document. -/
abbrev Scoped (α : Type) :=
  ExceptT EvalError (ReaderM (Option Value)) α

namespace Surroundings

/-- The value at a path of the scope. -/
def field (env : Surroundings) (path : Path) : Scoped Value := do
  match ← read with
  | some scope =>
    match scope.get? path with
    | some v => pure v
    | none => throw (.undefinedField path.text)
  | none => env.batch.document env.index path

def var (env : Surroundings) (name : String) : Except EvalError Value :=
  match env.vars.get? name with
  | some v => .ok v
  | none => .error (.undefinedVariable name)

end Surroundings

namespace Expr

variable {ν : Type}

mutual

/-- Evaluates an expression; `call` evaluates the map of a name. -/
def eval (env : Surroundings) (call : ν → Scoped Value) : Expr ν → Scoped Value
  | literal value => pure value
  | field path => env.field path
  | document path => env.batch.document env.index path
  | metadata key => env.batch.metadata env.index key
  | var name => env.var name
  | arithmetic operands => (evalOperands env call operands).run
  | conditional condition consequent alternative => do
    let holds ← ExceptT.adapt .ifCondition do (← eval env call condition).expectBool
    if holds then eval env call consequent
    else
      match alternative with
      | some alternative => eval env call alternative
      | none => pure .absent
  | switch context cases =>
    match context with
    | some context => do
      let scope ← eval env call context
      withReader (fun _ => some scope) (evalCases env call 0 cases)
    | none => evalCases env call 0 cases
  | not operand => do
    pure (.bool !(← (← eval env call operand).expectBool))
  | apply name => call name

/-- The result of the first case whose query holds; `index` is the place of the first one given. -/
def evalCases (env : Surroundings) (call : ν → Scoped Value) (index : Nat) :
    List (Case (Expr ν)) → Scoped Value
  | [] => pure .absent
  | ⟨query, result⟩ :: rest => do
    let holds ← ExceptT.adapt (.matchCase index) do (← eval env call query).expectBool
    if holds then eval env call result else evalCases env call (index + 1) rest

/-- The computations of the operands of a grouping. -/
def evalOperands (env : Surroundings) (call : ν → Scoped Value) :
    Grouping (Expr ν) → Grouping (Scoped Value)
  | .operand e => .operand (eval env call e)
  | .chain first rest => .chain (evalOperands env call first) (evalRest env call [] rest)

/-- The same for the later operands of a chain; `done` are those before them, latest first. -/
def evalRest (env : Surroundings) (call : ν → Scoped Value)
    (done : List (Operator × Grouping (Scoped Value))) :
    List (Operator × Grouping (Expr ν)) → List (Operator × Grouping (Scoped Value))
  | [] => done.reverse
  | (op, g) :: rest => evalRest env call ((op, evalOperands env call g) :: done) rest

end

theorem evalRest_eq (env : Surroundings) (call : ν → Scoped Value)
    (done : List (Operator × Grouping (Scoped Value)))
    (rest : List (Operator × Grouping (Expr ν))) :
    evalRest env call done rest =
      done.reverse ++ rest.map fun p => (p.1, evalOperands env call p.2) := by
  induction rest generalizing done with
  | nil => simp [evalRest]
  | cons p rest ih => simp [evalRest, ih]

theorem evalOperands_chain (env : Surroundings) (call : ν → Scoped Value)
    (first : Grouping (Expr ν)) (rest : List (Operator × Grouping (Expr ν))) :
    evalOperands env call (.chain first rest) =
      .chain (evalOperands env call first)
        (rest.map fun p => (p.1, evalOperands env call p.2)) := by
  simp [evalOperands, evalRest_eq]

/-- How deep applications of maps may nest. -/
def maxApplications : Nat := 64

/-- Evaluates an expression with named maps, of which at most `budget` may apply each other. -/
def run (env : Surroundings) (maps : Entries (Expr String)) : Nat → Expr String → Scoped Value
  | 0 => eval env fun name =>
    match maps.get? name with
    | some _ => throw (.recursionLimit name)
    | none => throw (.undefinedMap name)
  | budget + 1 => eval env fun name =>
    match maps.get? name with
    | some body => run env maps budget body
    | none => throw (.undefinedMap name)

end Expr

end MessageMapping
