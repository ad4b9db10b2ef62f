import MessageMapping.Proofs.Precedence
import MessageMapping.Proofs.TargetOccurrences
import MessageMapping.Proofs.Unambiguity

/-!
# Parentheses that change nothing

A block of a row in parentheses is grouped by itself and stands in the row as one operand
(`Terms.parenthesize`). In two cases that makes no difference to what the row answers and to which
operands run. If the block fits between the operators next to it, then the tree of the row holds the
tree of the block anyway (`Terms.collapse_flatten`). If one lazy operator joins the whole row, then
the trees differ, but such an operator is associative (`Operator.runPair_assoc`), and all trees of
the row run alike (`OpTree.run_eq_foldl`).
-/

namespace MessageMapping

/-- The operators that may leave their right operand out. -/
def Operator.lazy : List Operator :=
  [and, or, coalesce]

/-! ### Lazy operators -/

section

variable {m : Type → Type} [Monad m] {α β : Type}

theorem OpTree.run_bind (f : β → Computation m) (g : α → OpTree β) (t : OpTree α) :
    ((t.bind g).map f).run = (t.map fun a => ((g a).map f).run).run := by
  induction t with
  | leaf a => rfl
  | node op left right ihl ihr => exact congrArg₂ op.runPair ihl ihr

variable [LawfulMonad m]

namespace Operator

theorem coalescePair_assoc (x y z : Computation m) :
    coalescePair (coalescePair x y) z = coalescePair x (coalescePair y z) :=
  Chain.coalesce_coalescePair x y [z]

theorem logicPair_assoc (decisive : Bool) (x y z : Computation m) :
    logicPair decisive (logicPair decisive x y) z =
      logicPair decisive x (logicPair decisive y z) := by
  have hright : Chain.logic decisive [y, z] = Chain.logic decisive [logicPair decisive y z] :=
    (Chain.logic_logicPair decisive y z []).symm
  calc logicPair decisive (logicPair decisive x y) z
      = Chain.logic decisive [logicPair decisive x y, z] := (Chain.logic_pair decisive _ z).symm
    _ = Chain.logic decisive [x, y, z] := Chain.logic_logicPair decisive x y [z]
    _ = Chain.logic decisive [x, logicPair decisive y z] := by
      rw [Chain.logic, hright, ← Chain.logic]
    _ = logicPair decisive x (logicPair decisive y z) := Chain.logic_pair decisive x _

/-- A lazy operator is associative, with its failures and with what it leaves out. -/
theorem runPair_assoc {op : Operator} (hop : op ∈ lazy) (x y z : Computation m) :
    op.runPair (op.runPair x y) z = op.runPair x (op.runPair y z) := by
  simp only [lazy, List.mem_cons, List.not_mem_nil, or_false] at hop
  rcases hop with rfl | rfl | rfl
  · exact logicPair_assoc false x y z
  · exact logicPair_assoc true x y z
  · exact coalescePair_assoc x y z

end Operator

/-- A tree of one lazy operator runs its operands from left to right, whatever its shape. -/
theorem OpTree.run_eq_foldl {op : Operator} (hop : op ∈ Operator.lazy) {t : OpTree (Computation m)}
    (h : ∀ o ∈ t.row.operators, o = op) :
    t.run = (t.row.rest.map Prod.snd).foldl op.runPair t.row.first := by
  have : Std.Associative (op.runPair (m := m)) := ⟨Operator.runPair_assoc hop⟩
  induction t with
  | leaf x => rfl
  | node o left right ihl ihr =>
    rw [row, Terms.operators_link, List.forall_mem_append, List.forall_mem_cons] at h
    obtain ⟨hleft, rfl, hright⟩ := h
    rw [run, ihl hleft, ihr hright, row, Terms.link, List.map_append, List.foldl_append,
      List.map_cons, List.foldl_cons, List.foldl_assoc]

/-- A row may be grouped block by block if the blocks fit, or if one lazy operator joins it. -/
theorem Terms.run_blocks (f : α → Computation m) {blocks : Terms (Terms α)}
    (h : blocks.AllFit none none ∨
      ∃ op ∈ Operator.lazy, ∀ o ∈ blocks.flatten.operators, o = op) :
    (blocks.group.map fun block => (block.group.map f).run).run =
      (blocks.flatten.group.map f).run := by
  simp only [run_group]
  rw [← OpTree.run_bind]
  rcases h with h | ⟨op, hop, h⟩
  · rw [collapse_flatten h]
  · have hrow : ((blocks.collapse.bind collapse).map f).row =
        (blocks.flatten.collapse.map f).row := by
      rw [OpTree.row_map, OpTree.row_map, OpTree.row_bind]
      simp [row_collapse, map]
    have hop' : ∀ o ∈ (blocks.flatten.collapse.map f).row.operators, o = op := by
      rwa [OpTree.row_map, row_collapse, operators_map]
    rw [OpTree.run_eq_foldl hop hop', OpTree.run_eq_foldl hop (hrow ▸ hop'), hrow]

end

/-! ### A row with one block in parentheses -/

/-- An operand, or a block of operands in parentheses. -/
inductive Item (α : Type u)
  | single (a : α)
  | parens (g : Grouping α)

namespace Item

variable {α : Type u}

/-- The operands from left to right. -/
def operands : Item α → List α
  | single a => [a]
  | parens g => g.operands

/-- The expression that numbered operands make. -/
def expr {ν : Type u} : Item (Expr ν × Nat) → Expr ν
  | single p => p.1
  | parens g => .arithmetic (g.map Prod.fst)

variable {m : Type → Type} [Monad m] {α : Type}

def run (f : α → Computation m) : Item α → Computation m
  | single a => f a
  | parens g => (g.map f).run

/-- The outcome of a grouping of numbered operands some of which are in parentheses, and the numbers
of the operands that run. -/
def runLogged (outcome : α → Except EvalError Value) (g : Grouping (Item (α × Nat))) :
    Except EvalError Value × List Nat :=
  (g.map (run fun p => logged (outcome p.1) p.2)).run []

end Item

namespace Terms

variable {α β : Type u}

/-- A row with operands before and after it. -/
def surround (before : List (α × Operator)) (terms : Terms α) (after : List (Operator × α)) :
    Terms α :=
  before.foldr (fun p terms => link ⟨p.1, []⟩ p.2 terms) ⟨terms.first, terms.rest ++ after⟩

variable {before : List (α × Operator)} {terms : Terms α} {after : List (Operator × α)}

theorem operands_surround :
    (surround before terms after).operands =
      before.map Prod.fst ++ terms.operands ++ after.map Prod.snd := by
  induction before with
  | nil => simp [surround, operands]
  | cons p before ih =>
    show p.1 :: (surround before terms after).operands = _
    rw [ih]
    rfl

theorem operators_surround :
    (surround before terms after).operators =
      before.map Prod.snd ++ terms.operators ++ after.map Prod.fst := by
  induction before with
  | nil => simp [surround, operators]
  | cons p before ih =>
    show p.2 :: (surround before terms after).operators = _
    rw [ih]
    rfl

theorem map_surround (f : α → β) :
    (surround before terms after).map f =
      surround (before.map fun p => (f p.1, p.2)) (terms.map f)
        (after.map fun p => (p.1, f p.2)) := by
  induction before with
  | nil => simp [surround, map]
  | cons p before ih => exact (map_link f _ _ _).trans (congrArg _ ih)

/-- The row in blocks, all of them of one operand but for `terms`. -/
def blocks (before : List (α × Operator)) (terms : Terms α) (after : List (Operator × α)) :
    Terms (Terms α) :=
  surround (before.map fun p => (⟨p.1, []⟩, p.2)) ⟨terms, []⟩ (after.map fun p => (p.1, ⟨p.2, []⟩))

/-- The row with `terms` in parentheses. -/
def parenthesize (before : List (α × Operator)) (terms : Terms α) (after : List (Operator × α)) :
    Terms (Item α) :=
  surround (before.map fun p => (.single p.1, p.2)) ⟨.parens terms.group, []⟩
    (after.map fun p => (p.1, .single p.2))

theorem flatten_blocks : (blocks before terms after).flatten = surround before terms after := by
  induction before with
  | nil => simp [blocks, surround, flatten, List.flatMap_map]
  | cons p before ih => exact (flatten_link _ _ _).trans (congrArg _ ih)

theorem fits_single (left right : Option Operator) (a : α) :
    Fits left (⟨a, []⟩ : Terms α) right := by
  simp [Fits, operators]

theorem fitsFrom_single (left : Option Operator) (a : α) (rest : List (Operator × α)) :
    FitsFrom left ⟨a, []⟩ none (rest.map fun p => (p.1, ⟨p.2, []⟩)) := by
  induction rest generalizing left a with
  | nil => exact fits_single left none a
  | cons p rest ih => exact ⟨fits_single left _ a, ih _ p.2⟩

/-- The blocks fit if `terms` fits. -/
theorem allFit_blocks {left : Option Operator}
    (h : terms.Fits ((before.getLast?.map Prod.snd).or left) (after.head?.map Prod.fst)) :
    (blocks before terms after).AllFit left none := by
  induction before generalizing left with
  | nil =>
    cases after with
    | nil => exact h
    | cons p after => exact ⟨h, fitsFrom_single (some p.1) p.2 after⟩
  | cons p before ih =>
    have hlast : ((p :: before).getLast?.map Prod.snd).or left =
        (before.getLast?.map Prod.snd).or (some p.2) := by
      rw [List.getLast?_cons]
      cases before.getLast? <;> rfl
    exact allFit_link.2 ⟨fits_single left _ p.1, ih (hlast ▸ h)⟩

theorem operands_parenthesize :
    (parenthesize before terms after).operands.flatMap Item.operands =
      (surround before terms after).operands := by
  rw [parenthesize, operands_surround, operands_surround]
  simp [operands, Item.operands, List.flatMap_map, ← List.map_eq_flatMap, operands_group]

theorem operators_parenthesize :
    (parenthesize before terms after).operators = before.map Prod.snd ++ after.map Prod.fst := by
  rw [parenthesize, operators_surround]
  simp [operators, Function.comp_def]

end Terms

section

variable {m : Type → Type} [Monad m] [LawfulMonad m] {α : Type}

theorem Terms.run_parenthesize (f : α → Computation m) {before : List (α × Operator)}
    {terms : Terms α} {after : List (Operator × α)}
    (h : terms.Fits (before.getLast?.map Prod.snd) (after.head?.map Prod.fst) ∨
      ∃ op ∈ Operator.lazy, ∀ o ∈ (surround before terms after).operators, o = op) :
    ((parenthesize before terms after).group.map (Item.run f)).run =
      ((surround before terms after).group.map f).run := by
  have hmap : (parenthesize before terms after).map (Item.run f) =
      (blocks before terms after).map fun block => (block.group.map f).run := by
    have hsingle : ∀ a : α, (⟨a, []⟩ : Terms α).group = .operand a := fun _ => rfl
    rw [parenthesize, blocks, map_surround, map_surround]
    simp [map, Item.run, Function.comp_def, hsingle, Grouping.run]
  rw [← group_map, hmap, group_map, run_blocks f, flatten_blocks]
  rw [flatten_blocks]
  exact h.imp_left fun h => allFit_blocks (by rwa [Option.or_none])

end

/-! ### Expressions with parentheses -/

/-- Lists of the right lengths make a row with operands before and after it. -/
theorem Terms.exists_rows {α : Type u} {before block after : List α}
    {opsBefore inside opsAfter : List Operator} (hbefore : before.length = opsBefore.length)
    (hblock : block.length = inside.length + 1) (hafter : after.length = opsAfter.length) :
    ∃ (before' : List (α × Operator)) (terms : Terms α) (after' : List (Operator × α)),
      (before'.map Prod.fst = before ∧ before'.map Prod.snd = opsBefore) ∧
      (terms.operands = block ∧ terms.operators = inside) ∧
      after'.map Prod.snd = after ∧ after'.map Prod.fst = opsAfter := by
  obtain ⟨terms, hterms, hoperands⟩ := ofLists?_of_length hblock
  exact ⟨before.zip opsBefore, terms, opsAfter.zip after,
    ⟨List.map_fst_zip hbefore.le, List.map_snd_zip hbefore.ge⟩,
    ⟨hoperands, operators_of_ofLists? hterms⟩,
    List.map_snd_zip hafter.le, List.map_fst_zip hafter.ge⟩

theorem Grouping.ofLists?_eq_ok_map {α β : Type u} (f : α → β) {operands : List β}
    {operators : List Operator} {terms : Terms α} (h : terms.operands.map f = operands)
    (h' : terms.operators = operators) :
    ofLists? operands operators = .ok (terms.group.map f) := by
  have hoperands : (terms.map f).operands = operands := by rw [Terms.operands_map, h]
  have hoperators : (terms.map f).operators = operators := by rw [Terms.operators_map, h']
  rw [ofLists?, Terms.ofLists?_eq_ok hoperands hoperators, ← Terms.group_map]
  rfl

namespace Expr

variable {ν : Type} {before : List ((Expr ν × Nat) × Operator)} {terms : Terms (Expr ν × Nat)}
  {after : List (Operator × (Expr ν × Nat))}

theorem targets_item (x : Item (Expr ν × Nat)) :
    x.expr.targets = x.operands.flatMap fun p => p.1.targets := by
  cases x with
  | single p => simp [Item.expr, Item.operands]
  | parens g =>
    rw [Item.expr, targets, operandTargets_eq, Grouping.operands_map, List.flatMap_map,
      Item.operands]

theorem eval_item (env : Surroundings) (call : ν → Scoped Value) (x : Item (Expr ν × Nat)) :
    eval env call x.expr = x.run fun p => eval env call p.1 := by
  cases x with
  | single p => rfl
  | parens g => rw [Item.expr, eval_arithmetic, Grouping.map_map, Item.run]

theorem operands_expr_parenthesize :
    (Terms.parenthesize before terms after).operands.map Item.expr =
      (before.map Prod.fst).map Prod.fst ++
        .arithmetic (terms.group.map Prod.fst) :: (after.map Prod.snd).map Prod.fst := by
  rw [Terms.parenthesize, Terms.operands_surround]
  simp [Terms.operands, Item.expr, Function.comp_def]

theorem targets_parenthesize :
    targets (.arithmetic ((Terms.parenthesize before terms after).group.map Item.expr)) =
      targets (.arithmetic ((Terms.surround before terms after).group.map Prod.fst)) := by
  simp only [targets, operandTargets_eq, Grouping.operands_map, Terms.operands_group,
    List.flatMap_map, targets_item]
  rw [← List.flatMap_assoc, Terms.operands_parenthesize]

/-- The log of a row leaves its outcome as it is. -/
theorem runLogged_fst (env : Surroundings) (call : ν → Scoped Value) (s : Option Value)
    (terms : Terms (Expr ν × Nat)) :
    (terms.group.runLogged fun e => eval env call e s).1 =
      eval env call (.arithmetic (terms.group.map Prod.fst)) s := by
  obtain ⟨ran, -, hlog⟩ := terms.collapse.logs (eval env call) s []
  rw [terms.runLogged_group, eval_arithmetic, Grouping.map_map, terms.run_group, OpTree.runLogged,
    hlog]

/-- Parentheses around a block of operands may be left out if the block binds tighter than the
operator on its left and no looser than the one on its right, or if one lazy operator joins all
operands. The targets and the outcome stay as they are, and the same operands run. -/
theorem parentheses_redundant {before block after : List (Expr ν)}
    {opsBefore inside opsAfter : List Operator} (hbefore : before.length = opsBefore.length)
    (hblock : block.length = inside.length + 1) (hafter : after.length = opsAfter.length)
    (h : (∀ op ∈ inside, (∀ left ∈ opsBefore.getLast?, op.tier < left.tier) ∧
        ∀ right ∈ opsAfter.head?, op.tier ≤ right.tier) ∨
      ∃ common ∈ Operator.lazy, ∀ op ∈ opsBefore ++ inside ++ opsAfter, op = common) :
    ∃ (flat inner : Grouping (Expr ν × Nat)) (outer : Grouping (Item (Expr ν × Nat))),
      Grouping.ofLists? (before ++ block ++ after) (opsBefore ++ inside ++ opsAfter) =
        .ok (flat.map Prod.fst) ∧
      Grouping.ofLists? block inside = .ok (inner.map Prod.fst) ∧
      Grouping.ofLists? (before ++ .arithmetic (inner.map Prod.fst) :: after)
        (opsBefore ++ opsAfter) = .ok (outer.map Item.expr) ∧
      Grouping.ofLists? (before ++ block ++ after).zipIdx (opsBefore ++ inside ++ opsAfter) =
        .ok flat ∧
      outer.operands.flatMap Item.operands = (before ++ block ++ after).zipIdx ∧
      targets (.arithmetic (outer.map Item.expr)) = targets (.arithmetic (flat.map Prod.fst)) ∧
      ∀ (env : Surroundings) (call : ν → Scoped Value) (s : Option Value),
        let outcome := fun e => eval env call e s
        eval env call (.arithmetic (outer.map Item.expr)) s =
          eval env call (.arithmetic (flat.map Prod.fst)) s ∧
        Item.runLogged outcome outer = flat.runLogged outcome ∧
        (flat.runLogged outcome).1 = eval env call (.arithmetic (flat.map Prod.fst)) s := by
  -- the operands are numbered in the row, so that they keep their numbers in the parentheses
  obtain ⟨before', terms, after', ⟨hbefore', hopsBefore⟩, ⟨hblock', hinside⟩, hafter', hopsAfter⟩ :=
    @Terms.exists_rows _ before.zipIdx (block.zipIdx before.length)
      (after.zipIdx (before.length + block.length)) opsBefore inside opsAfter
      (by simpa) (by simpa) (by simpa)
  have hoperands : (Terms.surround before' terms after').operands =
      (before ++ block ++ after).zipIdx := by
    rw [Terms.operands_surround, hbefore', hblock', hafter']
    simp [List.zipIdx_append]
  have hoperators : (Terms.surround before' terms after').operators =
      opsBefore ++ inside ++ opsAfter := by
    rw [Terms.operators_surround, hopsBefore, hinside, hopsAfter]
  have hrun : ∀ {m : Type → Type} [Monad m] [LawfulMonad m] (f : Expr ν × Nat → Computation m),
      ((Terms.parenthesize before' terms after').group.map (Item.run f)).run =
        ((Terms.surround before' terms after').group.map f).run := by
    intro m _ _ f
    refine Terms.run_parenthesize f (h.imp (fun h => ?_) fun h => by rwa [hoperators])
    rw [Terms.Fits, hinside, ← List.getLast?_map, ← List.head?_map, hopsBefore, hopsAfter]
    exact h
  refine ⟨(Terms.surround before' terms after').group, terms.group,
    (Terms.parenthesize before' terms after').group, ?_, ?_, ?_, ?_, ?_, targets_parenthesize,
    fun env call s => ⟨?_, congrFun (hrun _) [], runLogged_fst env call s _⟩⟩
  · exact Grouping.ofLists?_eq_ok_map _ (by rw [hoperands, List.zipIdx_map_fst]) hoperators
  · exact Grouping.ofLists?_eq_ok_map _ (by rw [hblock', List.zipIdx_map_fst]) hinside
  · refine Grouping.ofLists?_eq_ok_map _ ?_ ?_
    · rw [operands_expr_parenthesize, hbefore', hafter', List.zipIdx_map_fst, List.zipIdx_map_fst]
    · rw [Terms.operators_parenthesize, hopsBefore, hopsAfter]
  · rw [Grouping.ofLists?, Terms.ofLists?_eq_ok hoperands hoperators]
    rfl
  · rw [Terms.operands_group, Terms.operands_parenthesize, hoperands]
  · rw [eval_arithmetic, eval_arithmetic, Grouping.map_map, Grouping.map_map]
    simp only [eval_item]
    rw [hrun]

/-- `x | (1 < 2) || y` is `x | 1 < 2 || y`: without a variable `x` the comparison decides, and `y`
is not run. -/
theorem parentheses_redundant_comparison :
    let before : List (Expr Empty) := [.var "x"]
    let block : List (Expr Empty) := [.literal (.number (.int 1)), .literal (.number (.int 2))]
    let after : List (Expr Empty) := [.var "y"]
    before.length = [Operator.coalesce].length ∧ block.length = [Operator.lt].length + 1 ∧
      after.length = [Operator.or].length ∧ Operator.lt.tier < Operator.coalesce.tier ∧
      Operator.lt.tier ≤ Operator.or.tier ∧
      ∃ (inner : Grouping (Expr Empty)) (outer : Grouping (Item (Expr Empty × Nat))),
        Grouping.ofLists? block [.lt] = .ok inner ∧
        Grouping.ofLists? (before ++ .arithmetic inner :: after) [.coalesce, .or] =
          .ok (outer.map Item.expr) ∧
        eval ⟨⟨[]⟩, 0, []⟩ nofun (.arithmetic (outer.map Item.expr)) none = .ok (.bool true) ∧
        (Item.runLogged (fun e => eval ⟨⟨[]⟩, 0, []⟩ nofun e none) outer).2 = [0, 1, 2] := by
  intro before block after
  refine ⟨rfl, rfl, rfl, by decide, by decide, ?_⟩
  obtain ⟨flat, inner, outer, -, hinner, houter, hflat, -, -, hrun⟩ :=
    @parentheses_redundant Empty before block after [.coalesce] [.lt] [.or] rfl rfl rfl
      (.inl (by decide))
  obtain ⟨heval, hlog, hfst⟩ := hrun ⟨⟨[]⟩, 0, []⟩ nofun none
  obtain rfl := Except.ok.inj hflat
  refine ⟨_, outer, hinner, houter, ?_, ?_⟩
  · rw [heval, ← hfst, Terms.runLogged_group]
    rfl
  · rw [hlog, Terms.runLogged_group]
    rfl

end Expr

end MessageMapping
