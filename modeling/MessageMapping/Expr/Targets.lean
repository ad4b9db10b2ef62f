import MessageMapping.Expr.Basic
import MessageMapping.Target

/-!
# Read analysis

`targets` lists what an expression may read, in the order of the expression and without evaluating
anything. Inside a match on a path the values of the cases are reported as seen from outside, and
the read of the context itself comes last. An application reports nothing, since only evaluation
knows which map it names.
-/

namespace MessageMapping

namespace Expr

variable {ν : Type u}

mutual

/-- Everything that an expression may read; duplicates are kept. -/
def targets : Expr ν → List Target
  | literal _ => []
  | field path => [⟨.value, path⟩]
  | document path => [⟨.value, path⟩]
  | metadata key => [⟨.metadata, if key.isEmpty then [] else [key]⟩]
  | var name => [⟨.variable, [name]⟩]
  | arithmetic operands => operandTargets operands
  | conditional condition consequent alternative =>
    targets condition ++ targets consequent ++
      match alternative with
      | some alternative => targets alternative
      | none => []
  | switch context cases =>
    match context with
    | some context =>
      (match context.scopePath? with
        | some path => (caseTargets cases).map (Target.rescope path)
        | none => caseTargets cases) ++ targets context
    | none => caseTargets cases
  | not operand => targets operand
  | apply _ => []

def caseTargets : List (Case (Expr ν)) → List Target
  | [] => []
  | ⟨query, result⟩ :: rest => targets query ++ targets result ++ caseTargets rest

def operandTargets : Grouping (Expr ν) → List Target
  | .operand e => targets e
  | .chain first rest => operandTargets first ++ restTargets [] rest

/-- The targets of later operands of a chain; `done` are the lists of those before, latest first. -/
def restTargets (done : List (List Target)) : List (Operator × Grouping (Expr ν)) → List Target
  | [] => done.reverse.flatten
  | (_, g) :: rest => restTargets (operandTargets g :: done) rest

end

theorem restTargets_eq (done : List (List Target)) (rest : List (Operator × Grouping (Expr ν))) :
    restTargets done rest = done.reverse.flatten ++ rest.flatMap fun p => operandTargets p.2 := by
  induction rest generalizing done with
  | nil => simp [restTargets]
  | cons p rest ih => simp [restTargets, ih]

theorem operandTargets_chain (first : Grouping (Expr ν))
    (rest : List (Operator × Grouping (Expr ν))) :
    operandTargets (.chain first rest) =
      operandTargets first ++ rest.flatMap fun p => operandTargets p.2 := by
  simp [operandTargets, restTargets_eq]

end Expr

end MessageMapping
