import MessageMapping.Command.Error
import MessageMapping.Mapping

/-!
# Running a mapping on one message

The message and the variables are given as text: metadata as `key=value`, variables as
`name=value` with a JSON value, or with any other text, which then stands for itself.
-/

namespace MessageMapping

/-- What to run, and on what. -/
structure ExecOptions where
  mapping : String
  input : Option String := none
  metadata : List String := []
  vars : List String := []

/-- What a mapping asks for. -/
inductive ExecOutcome
  | value (json : Json)
  | absent
  | delete

/-- Splits an argument at its first `=`. -/
def splitPair? (argument : String) : Option (String × String) :=
  let chars := argument.toList
  match chars.dropWhile (· ≠ '=') with
  | [] => none
  | _ :: value => some (String.ofList (chars.takeWhile (· ≠ '=')), String.ofList value)

/-- Reads a `key=value` argument. -/
def readPair (argument : String) : Except CommandError (String × String) :=
  match splitPair? argument with
  | some pair => .ok pair
  | none => .error (.invalidPair argument)

/-- The value of a variable: the JSON value of the text, or the text itself. -/
def variableValue (text : String) : Value :=
  match Json.ofText text with
  | .ok json => Value.ofJson json
  | .error _ => .string text

def ExecOutcome.ofValue : Value → ExecOutcome
  | .absent => absent
  | .delete => delete
  | v => value (v.toJson?.getD .null)

/-- The one message and the variables, from the arguments in order. -/
def ExecOptions.surroundings (options : ExecOptions) : Except CommandError Surroundings := do
  let metadata ← options.metadata.mapM readPair
  let vars ← options.vars.mapM readPair
  let message : Message :=
    { content := (options.input.getD "").toUTF8
      metadata := Entries.ofList metadata }
  return {
    batch := ⟨[message]⟩
    index := 0
    vars := Entries.ofList (vars.map fun (name, text) => (name, variableValue text)) }

/-- Builds the mapping, reads the arguments, and runs the mapping on the one message. -/
def ExecOptions.execute (options : ExecOptions) : Except CommandError ExecOutcome := do
  let mapping ← (Mapping.ofText options.mapping).mapError .build
  let env ← options.surroundings
  return .ofValue (← (mapping.exec env).mapError .eval)

/-- The texts of what the mapping may read. -/
def mappingTargets (mapping : String) : Except CommandError (List Target) := do
  return (← (Mapping.ofText mapping).mapError .build).targets

end MessageMapping
