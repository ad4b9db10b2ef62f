import MessageMapping.Grouping.Basic
import MessageMapping.Value.Basic

/-!
# Expressions

The syntax of mapping expressions. What `apply` names is a parameter: a name of a map in programs.
-/

namespace MessageMapping

/-- One arm of a match: a result, guarded by a query. -/
structure Case (α : Type u) where
  query : α
  result : α

/-- An expression whose applications name maps by `ν`. -/
inductive Expr (ν : Type u)
  | literal (value : Value)
  /-- A path in the scoped value, or in the document if there is none. -/
  | field (path : Path)
  /-- A path in the document. -/
  | document (path : Path)
  | metadata (key : String)
  | var (name : String)
  /-- Operands joined by operators. -/
  | arithmetic (operands : Grouping (Expr ν))
  | conditional (condition consequent : Expr ν) (alternative : Option (Expr ν))
  /-- Cases that are tried in order, scoped to the context if there is one. -/
  | switch (context : Option (Expr ν)) (cases : List (Case (Expr ν)))
  | not (operand : Expr ν)
  /-- The map of this name, in the scope of the caller. -/
  | apply (name : ν)

instance {ν : Type u} : Inhabited (Expr ν) :=
  ⟨.literal .null⟩

namespace Expr

variable {ν : Type u}

/-- The path that an expression scopes the cases of a match to, if it is a path of values. -/
def scopePath? : Expr ν → Option Path
  | field path => some path
  | document path => some path
  | _ => none

end Expr

end MessageMapping
