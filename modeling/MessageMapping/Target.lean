import MessageMapping.Path

/-!
# Read targets

What an expression may read: a path in the scoped value or the document, a metadata key, or a
variable.
-/

namespace MessageMapping

/-- Where a target lives. -/
inductive TargetKind
  | value
  | metadata
  | variable
  deriving DecidableEq, Repr

def TargetKind.name : TargetKind → String
  | .value => "value"
  | .metadata => "metadata"
  | .variable => "variable"

/-- Something an expression may read. -/
structure Target where
  kind : TargetKind
  path : Path
  deriving DecidableEq, Repr

namespace Target

/-- The target with `base` in front of its path. -/
def prepend (base : Path) (t : Target) : Target :=
  { t with path := base ++ t.path }

/-- The target seen from outside of a scope at `base`; only value paths depend on the scope. -/
def rescope (base : Path) (t : Target) : Target :=
  match t.kind with
  | .value => t.prepend base
  | _ => t

/-- The kind, followed by the dotted path unless that is the empty path. -/
def text (t : Target) : String :=
  if t.path.isEmpty then t.kind.name else t.kind.name ++ " " ++ t.path.text

end Target

end MessageMapping
