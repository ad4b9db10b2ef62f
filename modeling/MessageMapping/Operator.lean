/-!
# Operators

The binary operators and the tiers of their precedence.
-/

namespace MessageMapping

/-- A binary operator. -/
inductive Operator
  | add
  | sub
  | mul
  | div
  | mod
  | eq
  | ne
  | gt
  | ge
  | lt
  | le
  | and
  | or
  | coalesce
  deriving DecidableEq, Repr

namespace Operator

/-- All operators, in the order in which error texts list them. -/
def all : List Operator :=
  [add, sub, mul, div, mod, eq, ne, gt, ge, lt, le, and, or, coalesce]

def symbol : Operator → String
  | add => "+"
  | sub => "-"
  | mul => "*"
  | div => "/"
  | mod => "%"
  | eq => "=="
  | ne => "!="
  | gt => ">"
  | ge => ">="
  | lt => "<"
  | le => "<="
  | and => "&&"
  | or => "||"
  | coalesce => "|"

/-- The operator written by a symbol. -/
def ofSymbol? (symbol : String) : Option Operator :=
  all.find? fun op => op.symbol = symbol

/-- The tier of precedence; operators of a lower tier bind tighter. -/
def tier : Operator → Nat
  | mul | div | mod => 0
  | add | sub => 1
  | eq | ne | gt | ge | lt | le => 2
  | and => 3
  | or => 4
  | coalesce => 5

/-- The number of tiers. -/
def tiers : Nat := 6

/-- Whether a comparison holds of operands in this order; other operators hold of none. -/
def accepts (op : Operator) (order : Ordering) : Bool :=
  match op with
  | gt => order == .gt
  | ge => order != .lt
  | lt => order == .lt
  | le => order != .gt
  | _ => false

theorem tier_lt (op : Operator) : op.tier < tiers := by
  cases op <;> decide

theorem mem_all (op : Operator) : op ∈ all := by
  cases op <;> decide

theorem ofSymbol?_symbol (op : Operator) : ofSymbol? op.symbol = some op := by
  cases op <;> decide

end Operator

end MessageMapping
