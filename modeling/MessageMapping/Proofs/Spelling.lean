import MessageMapping.Proofs.Building

/-!
# Spellings of definitions

A definition can be written in many ways: `Json.Encodes` relates a JSON value to the definitions
that it spells, with the choice made anew at every node. A node is its type and its `parts`, the
fields in their declared order.
-/

namespace MessageMapping

/-! ### Fields -/

namespace Definition

/-- What stands in a field of a node. -/
inductive Part
  | json (value : Json)
  | name (text : String)
  /-- A text that is empty if it is left out. -/
  | text (text : String)
  | node (d : Definition)
  | node? (d : Option Definition)
  | nodes (ds : List Definition)
  | operators (ops : List Operator)
  | cases (cs : List (Case Definition))

/-- The definitions right inside of a part. -/
def Part.definitions : Part → List Definition
  | .node d => [d]
  | .node? d => d.toList
  | .nodes ds => ds
  | .cases cs => cs.flatMap fun c => [c.query, c.result]
  | _ => []

def type : Definition → NodeType
  | .literal _ => .literal
  | .absent => .absent
  | .delete => .delete
  | .field _ => .field
  | .document _ => .document
  | .metadata _ => .metadata
  | .var _ => .var
  | .arithmetic .. => .arithmetic
  | .conditional .. => .conditional
  | .switch .. => .switch
  | .not _ => .not
  | .apply _ => .apply

/-- The fields of a node in their declared order. -/
def parts : Definition → Entries Part
  | .literal value => [("value", .json value)]
  | .absent | .delete => []
  | .field path | .document path => [("path", .text path)]
  | .metadata key => [("key", .text key)]
  | .var name | .apply name => [("name", .name name)]
  | .arithmetic operands operators =>
    [("operands", .nodes operands), ("operators", .operators operators)]
  | .conditional condition consequent alternative =>
    [("condition", .node condition), ("then", .node consequent), ("else", .node? alternative)]
  | .switch context cases => [("context", .node? context), ("cases", .cases cases)]
  | .not operand => [("operand", .node operand)]

theorem map_fst_parts (d : Definition) : d.parts.map Prod.fst = d.type.fields := by
  cases d <;> rfl

theorem nodup_parts (d : Definition) : (d.parts.map Prod.fst).Nodup := by
  rw [map_fst_parts]
  cases d.type <;> decide

theorem parts_unique {d : Definition} {p q : String × Part} (hp : p ∈ d.parts) (hq : q ∈ d.parts)
    (h : p.1 = q.1) : p = q :=
  List.inj_on_of_nodup_map d.nodup_parts hp hq h

theorem children_eq (d : Definition) : d.children = d.parts.flatMap fun p => p.2.definitions := by
  cases d <;> simp [children, parts, Part.definitions]

/-- Induction from the definitions in the fields of a node to the node. -/
@[elab_as_elim]
theorem induct_parts {P : Definition → Prop}
    (h : ∀ d : Definition, (∀ p ∈ d.parts, ∀ d' ∈ p.2.definitions, P d') → P d)
    (d : Definition) : P d := by
  induction d using induct_children with
  | h d ih =>
    refine h d fun p hp d' hd' => ih d' ?_
    rw [children_eq]
    exact List.mem_flatMap.2 ⟨p, hp, hd'⟩

end Definition

/-! ### Spellings -/

namespace Json

/-- An operator is its symbol, or an object with the symbol as its only key. -/
inductive EncodesOperator : Json → Operator → Prop
  | symbol (op : Operator) : EncodesOperator (.string op.symbol) op
  | object (op : Operator) : EncodesOperator (.object [(op.symbol, .null)]) op

mutual

/-- The JSON value spells the definition. -/
inductive Encodes : Json → Definition → Prop
  /-- Keys stand in any order, next to any other keys. -/
  | object {members : Entries Json} {d : Definition} (hnodup : (members.map Prod.fst).Nodup)
    (htype : members.get? "type" = some (.string d.type.name))
    (hparts : ∀ p ∈ d.parts, EncodesPart (members.get? p.1) p.2) :
    Encodes (.object members) d
  | array {elements : List Json} {d : Definition} (hparts : EncodesParts elements d.parts) :
    Encodes (.array (.string d.type.name :: elements)) d

/-- The value of a field spells the part, or the field may be left out. -/
inductive EncodesPart : Option Json → Definition.Part → Prop
  | json (value : Json) : EncodesPart (some value) (.json value)
  | name (text : String) : EncodesPart (some (.string text)) (.name text)
  | text (text : String) : EncodesPart (some (.string text)) (.text text)
  | noText : EncodesPart none (.text "")
  | node {j : Json} {d : Definition} (h : Encodes j d) : EncodesPart (some j) (.node d)
  | node? {j : Json} {d : Definition} (h : Encodes j d) : EncodesPart (some j) (.node? (some d))
  | null : EncodesPart (some .null) (.node? none)
  | noNode : EncodesPart none (.node? none)
  | nodes {items : List Json} {ds : List Definition} (h : List.Forall₂ Encodes items ds) :
    EncodesPart (some (.array items)) (.nodes ds)
  | operators {items : List Json} {ops : List Operator}
    (h : List.Forall₂ EncodesOperator items ops) :
    EncodesPart (some (.array items)) (.operators ops)
  | cases {items : List Json} {cs : List (Case Definition)}
    (h : List.Forall₂ EncodesCase items cs) :
    EncodesPart (some (.array items)) (.cases cs)

/-- Elements spell parts one after the other; parts at the end may be left out. -/
inductive EncodesParts : List Json → Entries Definition.Part → Prop
  | nil {parts : Entries Definition.Part} (h : ∀ p ∈ parts, EncodesPart none p.2) :
    EncodesParts [] parts
  | cons {element : Json} {elements : List Json} {p : String × Definition.Part}
    {parts : Entries Definition.Part} (h : EncodesPart (some element) p.2)
    (hrest : EncodesParts elements parts) : EncodesParts (element :: elements) (p :: parts)

inductive EncodesCase : Json → Case Definition → Prop
  | object {members : Entries Json} {query result : Json} {c : Case Definition}
    (hnodup : (members.map Prod.fst).Nodup) (hquery : members.get? "query" = some query)
    (hresult : members.get? "result" = some result) (hq : Encodes query c.query)
    (hr : Encodes result c.result) : EncodesCase (.object members) c
  | array {query result : Json} {c : Case Definition} (hq : Encodes query c.query)
    (hr : Encodes result c.result) : EncodesCase (.array [query, result]) c

end

theorem EncodesPart.eq_empty {text : String} (h : EncodesPart none (.text text)) :
    text = "" := by
  cases h
  rfl

theorem EncodesPart.eq_none {d? : Option Definition} (h : EncodesPart none (.node? d?)) :
    d? = none := by
  cases h
  rfl

end Json

end MessageMapping
