import MessageMapping.BuildError

/-!
# Grouping operators by precedence

`Terms` is a flat row of operands with operators between them. `group` splits it at the loosest
operators, splits each piece at the next tighter ones, and so on. All operands that one tier joins
become one chain, so the nesting is bounded by the number of tiers however long the row is.
-/

namespace MessageMapping

/-- A row of operands, each but the first after an operator. -/
structure Terms (α : Type u) where
  first : α
  rest : List (Operator × α)

/-- Operands grouped by precedence; a chain holds operands that operators of one tier join. -/
inductive Grouping (α : Type u)
  | operand (a : α)
  | chain (first : Grouping α) (rest : List (Operator × Grouping α))

namespace Terms

variable {α β : Type u}

/-- Pairs operands with the operators between them, of which there has to be one fewer. -/
def ofLists? (operands : List α) (operators : List Operator) : Except BuildError (Terms α) :=
  match operands with
  | [] => .error .noOperands
  | first :: others =>
    if others.length = operators.length then .ok ⟨first, List.zipWith Prod.mk operators others⟩
    else .error (.operatorMismatch (others.length + 1) operators.length)

/-- The pieces between the operators of a tier, joined by these. -/
def splitAt (tier : Nat) (terms : Terms α) : Terms (Terms α) :=
  let (piece, pieces) := terms.rest.foldr
    (fun (op, a) (piece, pieces) =>
      if op.tier = tier then ([], (op, ⟨a, piece⟩) :: pieces) else ((op, a) :: piece, pieces))
    (([], []) : List (Operator × α) × List (Operator × Terms α))
  ⟨⟨terms.first, piece⟩, pieces⟩

/-- The terms as one chain; a single operand needs none. -/
def chain (terms : Terms (Grouping α)) : Grouping α :=
  if terms.rest.isEmpty then terms.first else .chain terms.first terms.rest

def map (f : α → β) (terms : Terms α) : Terms β :=
  ⟨f terms.first, terms.rest.map fun (op, a) => (op, f a)⟩

/-- Groups terms whose operators are all of tiers below `tiers`. -/
def groupBelow : Nat → Terms α → Grouping α
  | 0, terms => (terms.map .operand).chain
  | tier + 1, terms => ((terms.splitAt tier).map (groupBelow tier)).chain

/-- Groups terms by precedence. -/
def group (terms : Terms α) : Grouping α :=
  groupBelow Operator.tiers terms

end Terms

namespace Grouping

/-- Groups operands by the precedence of the operators between them. -/
def ofLists? {α : Type u} (operands : List α) (operators : List Operator) :
    Except BuildError (Grouping α) :=
  (Terms.ofLists? operands operators).map Terms.group

end Grouping

end MessageMapping
