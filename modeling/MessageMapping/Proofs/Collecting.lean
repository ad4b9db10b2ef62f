import MessageMapping.Proofs.Building
import MessageMapping.Proofs.TargetOccurrences

/-!
# Collecting targets from the top down

The read analysis goes from the bottom up: every match puts its base in front of targets that are
already there. `Expr.collect` goes from the top down and carries along what the matches above put
in front. Main result: both list the same targets in the same order, one for each accessor.
-/

namespace MessageMapping

namespace Expr

variable {ν : Type u}

/-! ### Going down -/

mutual

/-- The targets of an expression that stands below the path `base`. -/
def collect (base : Path) : Expr ν → List Target
  | literal _ => []
  | field path => [⟨.value, base ++ path⟩]
  | document path => [⟨.value, base ++ path⟩]
  | metadata key => [⟨.metadata, if key.isEmpty then [] else [key]⟩]
  | var name => [⟨.variable, [name]⟩]
  | arithmetic operands => collectOperands base operands
  | conditional condition consequent alternative =>
    collect base condition ++ collect base consequent ++
      match alternative with
      | some alternative => collect base alternative
      | none => []
  | switch context cases =>
    match context with
    | some context =>
      (match context.scopePath? with
        | some path => collectCases (base ++ path) cases
        | none => collectCases base cases) ++ collect base context
    | none => collectCases base cases
  | not operand => collect base operand
  | apply _ => []

def collectCases (base : Path) : List (Case (Expr ν)) → List Target
  | [] => []
  | ⟨query, result⟩ :: rest => collect base query ++ collect base result ++ collectCases base rest

def collectOperands (base : Path) : Grouping (Expr ν) → List Target
  | .operand e => collect base e
  | .chain first rest => collectOperands base first ++ collectRest base rest

def collectRest (base : Path) : List (Operator × Grouping (Expr ν)) → List Target
  | [] => []
  | (_, g) :: rest => collectOperands base g ++ collectRest base rest

end

theorem collectCases_eq (base : Path) (cases : List (Case (Expr ν))) :
    collectCases base cases =
      cases.flatMap fun c => c.query.collect base ++ c.result.collect base := by
  induction cases with
  | nil => rfl
  | cons c rest ih => simp [collectCases, ih]

theorem collectOperands_eq (base : Path) (g : Grouping (Expr ν)) :
    collectOperands base g = g.operands.flatMap (collect base) :=
  Grouping.eq_flatMap_operands (fun _ => rfl) (fun _ _ => rfl) rfl (fun _ _ => rfl) g

/-- The operands of a row are visited in their order, however precedence groups them. -/
theorem collect_arithmetic {operands : List (Expr ν)} {operators : List Operator}
    {g : Grouping (Expr ν)} (h : Grouping.ofLists? operands operators = .ok g) (base : Path) :
    (arithmetic g).collect base = operands.flatMap (collect base) := by
  rw [collect, collectOperands_eq, Grouping.operands_of_ofLists? h]

theorem collect_eq (base : Path) (e : Expr ν) :
    e.collect base = e.ownTargets.map (Target.rescope base) ++
      e.branches.flatMap fun b => b.expr.collect (base ++ b.base) := by
  cases e with
  | arithmetic g => simp [collect, ownTargets, branches, collectOperands_eq, List.flatMap_map]
  | conditional c t a => cases a <;> simp [collect, ownTargets, branches]
  | switch context cases =>
    cases context with
    | none =>
      simp [collect, ownTargets, branches, caseBranches, collectCases_eq, List.flatMap_assoc]
    | some x =>
      cases hx : x.scopePath? <;>
        simp [collect, ownTargets, branches, caseBranches, collectCases_eq, List.flatMap_assoc,
          Expr.base, hx]
  | _ => simp [collect, ownTargets, branches]

/-- Going down below `base` is the analysis seen from outside of `base`. -/
theorem map_rescope_targets (base : Path) (e : Expr ν) :
    e.targets.map (Target.rescope base) = e.collect base := by
  induction e using inductBranches generalizing base with
  | h e ih =>
    rw [targets_eq, collect_eq, List.map_append, List.map_flatMap]
    congr 1
    refine List.flatMap_congr fun b hb => ?_
    rw [← ih b hb, List.map_map]
    -- the path that the branch adds stands between `base` and what the branch reads
    exact List.map_congr_left fun t _ => t.rescope_rescope b.base base

/-! ### Accessors -/

mutual

/-- The subexpressions, each as often as it stands in the expression. -/
def nodes (e : Expr ν) : List (Expr ν) :=
  e :: match e with
    | literal _ | field _ | document _ | metadata _ | var _ | apply _ => []
    | arithmetic operands => operandNodes operands
    | conditional condition consequent alternative =>
      nodes condition ++ nodes consequent ++
        match alternative with
        | some alternative => nodes alternative
        | none => []
    | switch context cases =>
      match context with
      | some context => caseNodes cases ++ nodes context
      | none => caseNodes cases
    | not operand => nodes operand

def caseNodes : List (Case (Expr ν)) → List (Expr ν)
  | [] => []
  | ⟨query, result⟩ :: rest => nodes query ++ nodes result ++ caseNodes rest

def operandNodes : Grouping (Expr ν) → List (Expr ν)
  | .operand e => nodes e
  | .chain first rest => operandNodes first ++ restNodes rest

def restNodes : List (Operator × Grouping (Expr ν)) → List (Expr ν)
  | [] => []
  | (_, g) :: rest => operandNodes g ++ restNodes rest

end

theorem caseNodes_eq (cases : List (Case (Expr ν))) :
    caseNodes cases = cases.flatMap fun c => c.query.nodes ++ c.result.nodes := by
  induction cases with
  | nil => rfl
  | cons c rest ih => simp [caseNodes, ih]

theorem operandNodes_eq (g : Grouping (Expr ν)) : operandNodes g = g.operands.flatMap nodes :=
  Grouping.eq_flatMap_operands (fun _ => rfl) (fun _ _ => rfl) rfl (fun _ _ => rfl) g

theorem nodes_eq (e : Expr ν) : e.nodes = e :: e.branches.flatMap fun b => b.expr.nodes := by
  cases e with
  | arithmetic g => simp [nodes, branches, operandNodes_eq, List.flatMap_map]
  | conditional c t a => cases a <;> simp [nodes, branches]
  | switch context cases =>
    cases context <;>
      simp [nodes, branches, caseBranches, caseNodes_eq, List.flatMap_assoc]
  | _ => simp [nodes, branches]

theorem mem_nodes_iff {x e : Expr ν} : x ∈ e.nodes ↔ Within x e := by
  induction e using inductBranches with
  | h e ih =>
    rw [nodes_eq, List.mem_cons, List.mem_flatMap, Within.iff_branches]
    exact or_congr_right (exists_congr fun b => and_congr_right (ih b))

/-- The expression is a leaf that reads from its surroundings. -/
def isAccessor : Expr ν → Bool
  | field _ | document _ | metadata _ | var _ => true
  | _ => false

theorem length_ownTargets (e : Expr ν) : e.ownTargets.length = if e.isAccessor then 1 else 0 := by
  cases e <;> rfl

theorem length_targets (e : Expr ν) : e.targets.length = e.nodes.countP isAccessor := by
  induction e using inductBranches with
  | h e ih =>
    have hbranches : (e.branches.map fun b => b.expr.targets.length) =
        e.branches.map fun b => b.expr.nodes.countP isAccessor :=
      List.map_congr_left ih
    rw [targets_eq, nodes_eq, List.length_append, List.length_flatMap, length_ownTargets,
      List.countP_cons, List.countP_flatMap, Nat.add_comm]
    simp only [List.length_map, Function.comp_def, hbranches]

/-- The analysis lists what is found on the way down, with the operands of a row in their order. It
makes one target for each accessor and drops no duplicate. -/
theorem targets_eq_collect (e : Expr ν) :
    e.targets = e.collect [] ∧
    (∀ operands operators g, Grouping.ofLists? operands operators = .ok g → e = .arithmetic g →
      ∀ base, e.collect base = operands.flatMap (collect base)) ∧
    e.targets.length = e.nodes.countP isAccessor := by
  refine ⟨?_, ?_, length_targets e⟩
  · rw [← map_rescope_targets, funext Target.rescope_nil]
    exact (List.map_id _).symm
  · rintro operands operators g h rfl base
    exact collect_arithmetic h base

/-- `match a (meta "" => match json b (true => c)) | a + var x`: the field `a` is listed twice. -/
theorem targets_eq_collect_row :
    let inner : Expr String :=
      .switch (some (.document ["b"])) [⟨.literal (.bool true), .field ["c"]⟩]
    let outer : Expr String := .switch (some (.field ["a"])) [⟨.metadata "", inner⟩]
    let operands : List (Expr String) := [outer, .field ["a"], .var "x"]
    let g := .chain (.operand outer)
      [(.coalesce, .chain (.operand (.field ["a"])) [(.add, .operand (.var "x"))])]
    Grouping.ofLists? operands [.coalesce, .add] = .ok g ∧
      (arithmetic g).collect ["p"] = operands.flatMap (collect ["p"]) ∧
      (arithmetic g).targets = [⟨.metadata, []⟩, ⟨.value, ["a", "b", "c"]⟩, ⟨.value, ["a", "b"]⟩,
        ⟨.value, ["a"]⟩, ⟨.value, ["a"]⟩, ⟨.variable, ["x"]⟩] ∧
      (arithmetic g).targets.length = (arithmetic g).nodes.countP isAccessor := by
  intro inner outer operands g
  have hrow : Grouping.ofLists? operands [.coalesce, .add] = .ok g := rfl
  obtain ⟨htargets, hcollect, hlength⟩ := targets_eq_collect (arithmetic g)
  exact ⟨hrow, hcollect operands _ g hrow rfl ["p"], htargets.trans rfl, hlength⟩

end Expr

end MessageMapping
