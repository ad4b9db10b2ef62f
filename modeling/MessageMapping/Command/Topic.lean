/-!
# Documentation

The documentation that the command line prints: an overview of the topics, and a page for each.
-/

namespace MessageMapping

/-- A topic with a page of its own. -/
inductive Topic
  | nodes
  | operators
  | targets
  deriving DecidableEq, Repr

namespace Topic

/-- Lines of text, each ended. -/
def ended (lines : List String) : String :=
  String.join (lines.map fun line => line ++ "\n")

/-- The topic of a name, in upper or lower case. -/
def ofName? (name : String) : Option Topic :=
  match name.toLower with
  | "nodes" | "node" => some nodes
  | "operators" | "ops" => some operators
  | "targets" | "target" => some targets
  | _ => none

/-- The list of topics. -/
def overview : String :=
  ended [
    "MAPEXPR DOCUMENTATION",
    "",
    "mapexpr evaluates mapping expression trees against a message and reports",
    "which fields, metadata keys and variables a tree reads. Trees are written as",
    "JSON objects tagged by \"type\".",
    "",
    "DOCUMENTATION CATEGORIES",
    "",
    "  nodes        Node types and their fields",
    "  operators    Arithmetic operators, precedence and coercion",
    "  targets      Static target analysis",
    "",
    "Run 'mapexpr doc <category>' for detailed documentation."]

def nodesPage : List String :=
  [
    "NODES",
    "",
    "  \x7b\"type\": \"literal\", \"value\": <json>\x7d        fixed value",
    "  \x7b\"type\": \"absent\"\x7d                          nothing to assign",
    "  \x7b\"type\": \"delete\"\x7d                          delete the target",
    "  \x7b\"type\": \"field\", \"path\": \"a.b\"\x7d            path in the scoped value",
    "                                              (message document when unscoped)",
    "  \x7b\"type\": \"document\", \"path\": \"a.b\"\x7d         path in the message document",
    "  \x7b\"type\": \"meta\", \"key\": \"k\"\x7d                metadata value (all when empty)",
    "  \x7b\"type\": \"var\", \"name\": \"v\"\x7d                variable",
    "  \x7b\"type\": \"arithmetic\",",
    "   \"operands\": [...], \"operators\": [...]\x7d     operator chain",
    "  \x7b\"type\": \"if\", \"condition\": ...,",
    "   \"then\": ..., \"else\": ...\x7d                  else is optional",
    "  \x7b\"type\": \"match\", \"context\": ...,",
    "   \"cases\": [\x7b\"query\": ..., \"result\": ...\x7d]\x7d  context is optional",
    "  \x7b\"type\": \"not\", \"operand\": ...\x7d             boolean negation",
    "  \x7b\"type\": \"apply\", \"name\": \"m\"\x7d              run a named map",
    "",
    "A mapping file may wrap the root node with named maps:",
    "",
    "  \x7b\"maps\": \x7b\"m\": <node>\x7d, \"expr\": <node>\x7d"]

def operatorsPage : List String :=
  [
    "OPERATORS",
    "",
    "Precedence, tightest first:",
    "",
    "  *  /  %",
    "  +  -",
    "  ==  !=  >  >=  <  <=",
    "  &&",
    "  ||",
    "  |            coalesce",
    "",
    "NUMBERS",
    "",
    "  Any float operand gives a float. Otherwise an unsigned operand gives an",
    "  unsigned result, unless a negative integer is involved (float). Two",
    "  integers give an integer. Dividing by zero is an error.",
    "",
    "COMPARISON",
    "",
    "  > >= < <= compare numbers with numbers and strings with strings.",
    "  == != compare any values structurally and never fail.",
    "",
    "LOGIC",
    "",
    "  && and || take booleans and skip the right side when the left side",
    "  decides the result.",
    "",
    "COALESCE",
    "",
    "  a | b returns a unless it is null, absent, delete or fails."]

def targetsPage : List String :=
  [
    "TARGETS",
    "",
    "'mapexpr targets' lists every read a mapping may perform, without running",
    "it:",
    "",
    "  value a.b        field of the scoped value or document",
    "  metadata k       metadata key",
    "  variable v       variable",
    "",
    "Inside a match whose context is a field path, value reads of the cases",
    "are reported relative to the document (prefixed with the context path).",
    "The context's own read is listed last."]

/-- The page of a topic. -/
def page : Topic → String
  | nodes => ended nodesPage
  | operators => ended operatorsPage
  | targets => ended targetsPage

end Topic

end MessageMapping
