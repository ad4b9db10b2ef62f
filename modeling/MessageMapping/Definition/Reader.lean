import MessageMapping.Definition.Basic

/-!
# Reading definitions from JSON

A node is an object with a `type`, or the array of its type and its fields in their declared
order. The type is read first, then the fields in the order in which they stand, and then missing
fields are noticed in their declared order. Keys that a node does not have are ignored. Below the
root, the position of a type in the list of types may stand for its name.
-/

namespace MessageMapping

/-- What says nothing inside of a definition: `null`, or an object without members. -/
def Json.isBlank : Json → Bool
  | .null => true
  | .object [] => true
  | _ => false

/-- What says nothing elsewhere. -/
def Json.isNull : Json → Bool
  | .null => true
  | _ => false

def Operator.ofName (name : String) : Except ShapeError Operator :=
  match ofSymbol? name with
  | some op => .ok op
  | none => .error (.unknownOperator name)

/-- Reads an operator: its symbol, or an object with the symbol as its only key and a value that
says nothing. -/
def Operator.ofJson (saysNothing : Json → Bool) : Json → Except ShapeError Operator
  | .string name => ofName name
  | .object [(name, value)] => do
    let op ← ofName name
    if saysNothing value then .ok op else .error .wrongType
  | _ => .error .wrongType

/-- Reads the type of a node. -/
def NodeType.ofJson (root : Bool) : Json → Except ShapeError NodeType
  | .string name =>
    match ofName? name with
    | some type => .ok type
    | none => .error (.unknownType name)
  | .number (.int n ..) =>
    if root || n < 0 then .error .wrongType
    else
      match all[n.toNat]? with
      | some type => .ok type
      | none => .error .wrongType
  | _ => .error .wrongType

namespace Definition

/-- The fields of a node that have been read so far. -/
structure Draft where
  value : Option Json := none
  path : Option String := none
  key : Option String := none
  name : Option String := none
  operands : Option (List Definition) := none
  operators : Option (List Operator) := none
  condition : Option Definition := none
  consequent : Option Definition := none
  alternative : Option (Option Definition) := none
  context : Option (Option Definition) := none
  cases : Option (List (Case Definition)) := none
  operand : Option Definition := none

/-- The value of a field, and what it is when read as a node, as a list of nodes or as a list of
cases. -/
structure Child where
  value : Json
  node : Unit → Except ShapeError Definition
  nodes : Unit → Except ShapeError (List Definition)
  cases : Unit → Except ShapeError (List (Case Definition))

namespace Child

def text (child : Child) : Except ShapeError String :=
  match child.value with
  | .string text => .ok text
  | _ => .error .wrongType

def operators (child : Child) : Except ShapeError (List Operator) :=
  match child.value with
  | .array items => items.mapM (Operator.ofJson Json.isBlank)
  | _ => .error .wrongType

/-- A node, or `null` for none. -/
def node? (child : Child) : Except ShapeError (Option Definition) :=
  if child.value.isNull then .ok none else (child.node ()).map some

end Child

namespace Draft

/-- Reads a field by its name. -/
def set (draft : Draft) (name : String) (child : Child) : Except ShapeError Draft :=
  match name with
  | "value" => .ok { draft with value := some child.value }
  | "path" => do return { draft with path := some (← child.text) }
  | "key" => do return { draft with key := some (← child.text) }
  | "name" => do return { draft with name := some (← child.text) }
  | "operands" => do return { draft with operands := some (← child.nodes ()) }
  | "operators" => do return { draft with operators := some (← child.operators) }
  | "condition" => do return { draft with condition := some (← child.node ()) }
  | "then" => do return { draft with consequent := some (← child.node ()) }
  | "else" => do return { draft with alternative := some (← child.node?) }
  | "context" => do return { draft with context := some (← child.node?) }
  | "cases" => do return { draft with cases := some (← child.cases ()) }
  | "operand" => do return { draft with operand := some (← child.node ()) }
  | _ => .ok draft

/-- The node of a type with these fields; `missing` says what is wrong when one that is needed is
not there. -/
def finish (draft : Draft) (missing : String → ShapeError) (type : NodeType) :
    Except ShapeError Definition :=
  match type with
  | .literal => do return .literal (← need "value" draft.value)
  | .absent => .ok .absent
  | .delete => .ok .delete
  | .field => .ok (.field (draft.path.getD ""))
  | .document => .ok (.document (draft.path.getD ""))
  | .metadata => .ok (.metadata (draft.key.getD ""))
  | .var => do return .var (← need "name" draft.name)
  | .arithmetic => do
    let operands ← need "operands" draft.operands
    return .arithmetic operands (← need "operators" draft.operators)
  | .conditional => do
    let condition ← need "condition" draft.condition
    return .conditional condition (← need "then" draft.consequent) (draft.alternative.getD none)
  | .switch => do return .switch (draft.context.getD none) (← need "cases" draft.cases)
  | .not => do return .not (← need "operand" draft.operand)
  | .apply => do return .apply (← need "name" draft.name)
where
  need {α : Type} (name : String) : Option α → Except ShapeError α
    | some a => .ok a
    | none => .error (missing name)

end Draft

/-- The type of a node in object form. -/
def typeOf (root : Bool) (members : Entries Json) : Except ShapeError NodeType :=
  match members.get? "type" with
  | some value => NodeType.ofJson root value
  | none => .error (.missingField "type")

mutual

/-- Reads a node, which is a `root` or lies inside another node. -/
def ofNode (root : Bool) : Json → Except ShapeError Definition
  | .object members => do
    let type ← typeOf root members
    (← readMembers type.fields {} members).finish .missingField type
  | .array (tag :: elements) => do
    let type ← NodeType.ofJson root tag
    (← readElements {} type.fields elements).finish (fun _ => .wrongLength) type
  | .array [] => .error (.missingField "type")
  | _ => .error .wrongType

/-- Reads those members that are fields of the node. -/
def readMembers (fields : List String) (draft : Draft) :
    List (String × Json) → Except ShapeError Draft
  | [] => .ok draft
  | (name, value) :: rest => do
    if fields.contains name then
      let draft ← draft.set name
        ⟨value, fun _ => ofNode false value, fun _ => ofNodes value, fun _ => ofCases value⟩
      readMembers fields draft rest
    else readMembers fields draft rest

/-- Reads elements as the fields of the node, one after the other. -/
def readElements (draft : Draft) : List String → List Json → Except ShapeError Draft
  | _, [] => .ok draft
  | [], _ :: _ => .error .wrongLength
  | name :: fields, value :: rest => do
    let draft ← draft.set name
      ⟨value, fun _ => ofNode false value, fun _ => ofNodes value, fun _ => ofCases value⟩
    readElements draft fields rest

def ofNodes : Json → Except ShapeError (List Definition)
  | .array items => readNodes items
  | _ => .error .wrongType

def readNodes : List Json → Except ShapeError (List Definition)
  | [] => .ok []
  | item :: rest => do
    let d ← ofNode false item
    return d :: (← readNodes rest)

def ofCases : Json → Except ShapeError (List (Case Definition))
  | .array items => readCases items
  | _ => .error .wrongType

def readCases : List Json → Except ShapeError (List (Case Definition))
  | [] => .ok []
  | item :: rest => do
    let c ← ofCase item
    return c :: (← readCases rest)

/-- Reads a case: an object with a query and a result, or the array of the two. -/
def ofCase : Json → Except ShapeError (Case Definition)
  | .object members => readCase none none members
  | .array [] => .error .wrongLength
  | .array [query] => do
    let _ ← ofNode false query
    .error .wrongLength
  | .array (query :: result :: more) => do
    let query ← ofNode false query
    let result ← ofNode false result
    if more.isEmpty then .ok ⟨query, result⟩ else .error .wrongLength
  | _ => .error .wrongType

def readCase (query result : Option Definition) :
    List (String × Json) → Except ShapeError (Case Definition)
  | [] =>
    match query, result with
    | some query, some result => .ok ⟨query, result⟩
    | none, _ => .error (.missingField "query")
    | some _, none => .error (.missingField "result")
  | (name, value) :: rest => do
    if name = "query" then readCase (some (← ofNode false value)) result rest
    else if name = "result" then readCase query (some (← ofNode false value)) rest
    else readCase query result rest

end

/-- Reads a root node. -/
def ofJson (json : Json) : Except ShapeError Definition :=
  ofNode true json

end Definition

namespace MappingDefinition

/-- Reads the named maps, each of which is a root node. -/
def readMaps : Json → Except ShapeError (Entries Definition)
  | .object members =>
    members.mapM fun (name, value) => do return (name, ← Definition.ofJson value)
  | _ => .error .wrongType

/-- Reads the members of a mapping. -/
def readMembers (maps : Entries Definition) (expr : Option Definition) :
    List (String × Json) → Except ShapeError MappingDefinition
  | [] =>
    match expr with
    | some expr => .ok { maps, expr }
    | none => .error (.missingField "expr")
  | (name, value) :: rest => do
    if name = "maps" then readMembers (← readMaps value) expr rest
    else if name = "expr" then readMembers maps (some (← Definition.ofJson value)) rest
    else readMembers maps expr rest

/-- Reads a mapping: an object with a member `expr`, or else a lone root node. -/
def ofJson (json : Json) : Except ShapeError MappingDefinition :=
  match json with
  | .object members =>
    if (Entries.get? "expr" members).isSome then readMembers [] none members
    else do return { expr := ← Definition.ofJson json }
  | _ => do return { expr := ← Definition.ofJson json }

end MappingDefinition

end MessageMapping
