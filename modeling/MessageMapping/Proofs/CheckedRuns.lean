import MessageMapping.Proofs.Compatibility
import MessageMapping.Proofs.IntegerArithmetic
import MessageMapping.Proofs.Layers
import MessageMapping.Proofs.Precedence
import MessageMapping.Proofs.TargetOccurrences

/-!
# Runs that could get stuck

`Checked.run` runs a chain that is kept as two lists, one of operands and one of operators. It gets
stuck where it would look up an operand that is not there, or give an operator to arithmetic or to a
comparison that they do not know. A grouping by precedence never gets stuck: it runs as before
(`Grouping.runChecked_eq`), because each chain has an operand and all its operators are of one tier.
-/

namespace MessageMapping

/-- The operators of comparisons. -/
def Operator.comparisons : List Operator :=
  [gt, ge, lt, le]

section

variable {m : Type → Type} [Monad m]

/-- The computation that is stuck. -/
def stuck : Computation (OptionT m) :=
  ExceptT.mk OptionT.fail

/-- A computation as one that never gets stuck. -/
def unstuck {α : Type} (x : ExceptT EvalError m α) : ExceptT EvalError (OptionT m) α :=
  ExceptT.mk (OptionT.lift x.run)

namespace Checked

def operandAt (operands : List (Computation (OptionT m))) (i : Nat) : Computation (OptionT m) :=
  operands[i]?.getD stuck

/-- Each operand before the last one may fall back on the next. -/
def coalesce (operands : List (Computation (OptionT m))) : Computation (OptionT m) :=
  (operands.take (operands.length - 1)).foldr Operator.coalescePair
    (operandAt operands (operands.length - 1))

def arithmetic (op : Operator) (left right : Value) : Computation (OptionT m) :=
  if op ∈ Operator.arithmetical then liftM (Value.arithmetic op left right) else stuck

def compare (op : Operator) (left right : Value) : Computation (OptionT m) :=
  if op ∈ Operator.comparisons then liftM ((Value.compare op left right).map .bool) else stuck

def apply (op : Operator) (left right : Value) : Computation (OptionT m) :=
  match op with
  | .eq => pure (.bool (left.equals right))
  | .ne => pure (.bool (!left.equals right))
  | .gt | .ge | .lt | .le => compare op left right
  | _ => arithmetic op left right

def fold (operands : List (Computation (OptionT m))) (operators : List Operator) :
    Computation (OptionT m) := do
  (operators.zip (operands.drop 1)).foldlM (fun left p => do apply p.1 left (← p.2))
    (← operandAt operands 0)

/-- Runs a chain of operands with operators between them. -/
def run (operands : List (Computation (OptionT m))) (operators : List Operator) :
    Computation (OptionT m) :=
  match operators.head? with
  | some .coalesce => coalesce operands
  | some .and => Chain.logic false operands
  | some .or => Chain.logic true operands
  | _ => fold operands operators

end Checked

namespace Grouping

mutual

/-- Runs a grouping with all checks. -/
def runChecked : Grouping (Computation (OptionT m)) → Computation (OptionT m)
  | .operand x => x
  | .chain first rest => Checked.run (runChecked first :: runCheckedRest rest) (rest.map Prod.fst)

def runCheckedRest :
    List (Operator × Grouping (Computation (OptionT m))) → List (Computation (OptionT m))
  | [] => []
  | (_, g) :: rest => runChecked g :: runCheckedRest rest

end

theorem runChecked_chain (first : Grouping (Computation (OptionT m)))
    (rest : List (Operator × Grouping (Computation (OptionT m)))) :
    runChecked (.chain first rest) =
      Checked.run (runChecked first :: rest.map fun p => runChecked p.2) (rest.map Prod.fst) := by
  have : ∀ rest : List (Operator × Grouping (Computation (OptionT m))),
      runCheckedRest rest = rest.map fun p => runChecked p.2 := by
    intro rest
    induction rest with
    | nil => simp [runCheckedRest]
    | cons p rest ih => simp [runCheckedRest, ih]
  simp [runChecked, this]

end Grouping

namespace Checked

theorem apply_eq {op : Operator} (hop : op.tier ≤ 2) (left right : Value) :
    (apply op left right : Computation (OptionT m)) = liftM (op.apply left right) := by
  cases op <;> first | rfl | simp [Operator.tier] at hop

theorem coalesce_eq (first : Computation (OptionT m)) (rest : List (Computation (OptionT m))) :
    coalesce (first :: rest) = Chain.coalesce first rest := by
  induction rest generalizing first with
  | nil => rfl
  | cons next rest ih =>
    rw [Chain.coalesce_cons, ← ih next]
    rfl

end Checked

end

variable {m : Type → Type} [Monad m] [LawfulMonad m]

/-! ### Chains -/

namespace Checked

theorem fold_eq {rest : List (Operator × Computation (OptionT m))}
    (h : ∀ p ∈ rest, p.1.tier ≤ 2) (first : Computation (OptionT m)) :
    fold (first :: rest.map Prod.snd) (rest.map Prod.fst) =
      first >>= fun v => Chain.fold v rest := by
  have hzip : (rest.map Prod.fst).zip (rest.map Prod.snd) = rest := (List.zip_of_prod rfl rfl).symm
  show (first >>= fun v => List.foldlM _ v ((rest.map Prod.fst).zip (rest.map Prod.snd))) = _
  rw [hzip]
  refine bind_congr fun v => ?_
  clear hzip
  induction rest generalizing v with
  | nil => rfl
  | cons p rest ih =>
    obtain ⟨hp, hrest⟩ := List.forall_mem_cons.1 h
    simp only [List.foldlM_cons, Chain.fold, bind_assoc, apply_eq hp]
    exact bind_congr fun w => bind_congr fun left => ih hrest left

/-- A chain of operators of one tier does not get stuck. -/
theorem run_eq {tier : Nat} {rest : List (Operator × Computation (OptionT m))}
    (h : ∀ p ∈ rest, p.1.tier = tier) (first : Computation (OptionT m)) :
    run (first :: rest.map Prod.snd) (rest.map Prod.fst) = Chain.run first rest := by
  cases rest with
  | nil => exact fold_eq (by simp) first
  | cons p rest =>
    obtain ⟨op, next⟩ := p
    have hop : op.tier = tier := h _ List.mem_cons_self
    cases op with
    | coalesce => exact coalesce_eq first _
    | and => rfl
    | or => rfl
    | _ =>
      have hle : tier ≤ 2 := hop ▸ by decide
      exact fold_eq (fun p hp => h p hp ▸ hle) first

end Checked

/-! ### Groupings -/

theorem Grouping.Layered.runChecked_eq {bound : Nat} {g : Grouping (Computation (OptionT m))}
    (h : g.Layered bound) : g.runChecked = g.run := by
  induction h with
  | operand => simp [runChecked, run]
  | @chain _ tier first rest _ _ htier _ _ ihf ihr =>
    have hsnd : rest.map (fun p => p.2.runChecked) =
        (rest.map fun p => (p.1, p.2.run)).map Prod.snd := by
      rw [List.map_map]
      exact List.map_congr_left ihr
    have hfst : rest.map Prod.fst = (rest.map fun p => (p.1, p.2.run)).map Prod.fst := by
      rw [List.map_map]
      rfl
    rw [runChecked_chain, run_chain, ihf, hsnd, hfst]
    exact Checked.run_eq (List.forall_mem_map.2 htier) _

theorem lift_pure {α : Type} (a : α) : (OptionT.lift (pure a : m α) : OptionT m α) = pure a := by
  rw [OptionT.lift, pure_bind]
  rfl

theorem compatible_unstuck :
    Compatible fun (x : ExceptT EvalError m _) (y : ExceptT EvalError (OptionT m) _) =>
      y = unstuck x where
  pure v := ExceptT.ext (lift_pure (Except.ok v)).symm
  bind {_ _ x y f g} hx hf := by
    subst hx
    refine ExceptT.ext ?_
    rw [ExceptT.run_bind, unstuck, unstuck, ExceptT.run_mk, ExceptT.run_mk, ExceptT.run_bind,
      OptionT.lift_bind]
    refine bind_congr fun r => ?_
    cases r with
    | ok a => exact congrArg ExceptT.run (hf a)
    | error e => exact (lift_pure _).symm
  expectBool v := ExceptT.ext (lift_pure _).symm
  apply op v w := ExceptT.ext (lift_pure _).symm
  coalesce {x next y next'} hx hnext := by
    subst hx hnext
    refine ExceptT.ext ?_
    simp only [Chain.coalesce, unstuck, ExceptT.run_mk, OptionT.lift_bind]
    refine bind_congr fun r => ?_
    cases r with
    | ok v =>
      by_cases hv : v.isEmpty = true
      · simp [hv]
      · simp only [hv]
        exact (lift_pure _).symm
    | error e => rfl

/-- A grouping by precedence does not get stuck. -/
theorem Grouping.Layered.runChecked_unstuck {ι : Type} {bound : Nat} {g : Grouping ι}
    (h : g.Layered bound) (f : ι → Computation m) :
    (g.map fun a => unstuck (f a)).runChecked = unstuck (g.map f).run := by
  rw [(h.map _).runChecked_eq]
  exact g.run_compatible compatible_unstuck fun _ _ => rfl

namespace Expr

/-- Grouping operands by precedence succeeds, keeps their row, and gives chains of one tier each,
which nest from looser to tighter tiers. So the operands are reported in their order, and running
them looks up no operand that is not there and gives arithmetic and comparisons no operator but
their own. -/
theorem arithmetic_layered {ν : Type} {operands : List (Expr ν)} {operators : List Operator}
    (h : operands.length = operators.length + 1) :
    ∃ g : Grouping (Expr ν), Grouping.ofLists? operands operators = .ok g ∧
      g.row.operands = operands ∧ g.row.operators = operators ∧
      g.Layered Operator.tiers ∧ g.height ≤ 6 ∧
      targets (.arithmetic g) = operands.flatMap targets ∧
      ∀ (env : Surroundings) (call : ν → Scoped Value),
        (g.map fun e => unstuck (eval env call e)).runChecked =
          unstuck (eval env call (.arithmetic g)) := by
  obtain ⟨terms, hterms, hoperands⟩ := Terms.ofLists?_of_length h
  have hg : Grouping.ofLists? operands operators = .ok terms.group := by
    rw [Grouping.ofLists?, hterms]
    rfl
  have hlayered := terms.layered_group
  refine ⟨terms.group, hg, ?_, ?_, hlayered, hlayered.height_le, ?_, fun env call => ?_⟩
  · rw [terms.row_group, hoperands]
  · rw [terms.row_group, Terms.operators_of_ofLists? hterms]
  · rw [targets, operandTargets_eq, Grouping.operands_of_ofLists? hg]
  · rw [eval_arithmetic, hlayered.runChecked_unstuck]

/-- In `a | b || c && d == e + f * g` every tier nests in the one before. -/
theorem arithmetic_layered_six :
    let operands : List (Expr Empty) :=
      [.var "a", .var "b", .var "c", .var "d", .var "e", .var "f", .var "g"]
    let operators : List Operator := [.coalesce, .or, .and, .eq, .add, .mul]
    operands.length = operators.length + 1 ∧
      ∃ g : Grouping (Expr Empty), Grouping.ofLists? operands operators = .ok g ∧
        g.height = 6 ∧ g.Layered Operator.tiers ∧ g.row.operators = operators := by
  intro operands operators
  obtain ⟨g, hg, -, hoperators, hlayered, -⟩ := @arithmetic_layered Empty operands operators rfl
  obtain rfl := Except.ok.inj hg
  exact ⟨rfl, _, rfl, rfl, hlayered, hoperators⟩

end Expr

end MessageMapping
