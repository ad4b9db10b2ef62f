import MessageMapping.Definition.Reader
import MessageMapping.Expr.Eval
import MessageMapping.Expr.Targets

/-!
# Mappings

A mapping is an expression with the named maps that it may apply. It is compiled from a
definition, whose text is JSON, and run on a message of a batch.
-/

namespace MessageMapping

/-- An expression and the maps that it may apply. -/
structure Mapping where
  maps : Entries (Expr String) := []
  root : Expr String

namespace Mapping

/-- Builds the maps in their order, and then the root. -/
def ofDefinition (d : MappingDefinition) : Except BuildError Mapping := do
  let maps ← d.maps.mapM fun (name, body) => do return (name, ← body.build)
  return { maps, root := ← d.expr.build }

/-- Reads and builds the text of a mapping. -/
def ofText (text : String) : Except BuildError Mapping := do
  let json ← (Json.ofText text).mapError .notJson
  ofDefinition (← (MappingDefinition.ofJson json).mapError .badShape)

/-- Runs the mapping without a scoped value. -/
def exec (mapping : Mapping) (env : Surroundings) : Except EvalError Value :=
  mapping.root.run env mapping.maps Expr.maxApplications none

/-- What the root may read. -/
def targets (mapping : Mapping) : List Target :=
  mapping.root.targets

end Mapping

end MessageMapping
