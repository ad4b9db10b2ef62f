/-!
# Node types

The types of nodes in a definition, how they are spelled, and the fields that they have.
-/

namespace MessageMapping

/-- The type of a node. -/
inductive NodeType
  | literal
  | absent
  | delete
  | field
  | document
  | metadata
  | var
  | arithmetic
  | conditional
  | switch
  | not
  | apply
  deriving DecidableEq, Repr

namespace NodeType

/-- All types, in the order in which error texts list them and positions count them. -/
def all : List NodeType :=
  [literal, absent, delete, field, document, metadata, var, arithmetic, conditional, switch, not,
    apply]

def name : NodeType → String
  | literal => "literal"
  | absent => "absent"
  | delete => "delete"
  | field => "field"
  | document => "document"
  | metadata => "meta"
  | var => "var"
  | arithmetic => "arithmetic"
  | conditional => "if"
  | switch => "match"
  | not => "not"
  | apply => "apply"

/-- The type of a name. -/
def ofName? (name : String) : Option NodeType :=
  all.find? fun type => type.name = name

/-- The names of the fields, in the order of the array form. -/
def fields : NodeType → List String
  | literal => ["value"]
  | absent => []
  | delete => []
  | field => ["path"]
  | document => ["path"]
  | metadata => ["key"]
  | var => ["name"]
  | arithmetic => ["operands", "operators"]
  | conditional => ["condition", "then", "else"]
  | switch => ["context", "cases"]
  | not => ["operand"]
  | apply => ["name"]

theorem ofName?_name (type : NodeType) : ofName? type.name = some type := by
  cases type <;> decide

end NodeType

end MessageMapping
