import MessageMapping.Grouping.Basic
import MessageMapping.Value.Arithmetic

/-!
# Running a grouping

The operands of a grouping are computations in some monad, which can fail. A chain runs them from
left to right and no further than its operator needs: coalescing stops at the first operand that
holds data, and logic at the first that decides.
-/

namespace MessageMapping

/-- A computation of a value that can fail. -/
abbrev Computation (m : Type → Type) :=
  ExceptT EvalError m Value

namespace Value

/-- Whether coalescing passes a value over. -/
def isEmpty : Value → Bool
  | null | absent | delete => true
  | _ => false

end Value

namespace Chain

variable {m : Type → Type} [Monad m]

/-- The first operand that neither fails nor is empty; the last one answers as it is. -/
@[specialize]
def coalesce (first : Computation m) : List (Computation m) → Computation m
  | [] => first
  | next :: rest => ExceptT.mk do
    match ← first.run with
    | .ok v => if v.isEmpty then (coalesce next rest).run else pure (.ok v)
    | .error _ => (coalesce next rest).run

/-- Whether some operand is the decisive boolean; operands after it are not run. -/
@[specialize]
def logic (decisive : Bool) : List (Computation m) → Computation m
  | [] => pure (.bool !decisive)
  | operand :: rest => do
    if (← (← operand).expectBool) = decisive then pure (.bool decisive) else logic decisive rest

/-- Applies the operators to the value so far, one after the other. -/
@[specialize]
def fold (left : Value) : List (Operator × Computation m) → Computation m
  | [] => pure left
  | (op, operand) :: rest => do
    let right ← operand
    fold (← op.apply left right) rest

/-- Runs operands that operators of one tier join. -/
@[specialize]
def run (first : Computation m) (rest : List (Operator × Computation m)) : Computation m :=
  match rest with
  | (.coalesce, _) :: _ => coalesce first (rest.map Prod.snd)
  | (.and, _) :: _ => logic false (first :: rest.map Prod.snd)
  | (.or, _) :: _ => logic true (first :: rest.map Prod.snd)
  | _ => do fold (← first) rest

end Chain

namespace Grouping

variable {m : Type → Type} [Monad m]

mutual

/-- Runs a grouping of computations. -/
def run : Grouping (Computation m) → Computation m
  | .operand x => x
  | .chain first rest => Chain.run (run first) (runRest [] rest)

/-- The computations of later operands of a chain; `done` are those before, latest first. -/
def runRest (done : List (Operator × Computation m)) :
    List (Operator × Grouping (Computation m)) → List (Operator × Computation m)
  | [] => done.reverse
  | (op, g) :: rest => runRest ((op, run g) :: done) rest

end

theorem runRest_eq (done : List (Operator × Computation m))
    (rest : List (Operator × Grouping (Computation m))) :
    runRest done rest = done.reverse ++ rest.map fun p => (p.1, run p.2) := by
  induction rest generalizing done with
  | nil => simp [runRest]
  | cons p rest ih => simp [runRest, ih]

theorem run_chain (first : Grouping (Computation m))
    (rest : List (Operator × Grouping (Computation m))) :
    run (.chain first rest) = Chain.run (run first) (rest.map fun p => (p.1, run p.2)) := by
  simp [run, runRest_eq]

end Grouping

end MessageMapping
