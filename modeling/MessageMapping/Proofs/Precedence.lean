import MessageMapping.Proofs.Agreement
import MessageMapping.Proofs.Reduction

/-!
# Chains and binary trees run alike

`OpTree.run` runs a tree of binary nodes lazily: the right operand of a node is run only if its
operator needs it. A chain runs as its operands joined from left to right (`Chain.run_eq_foldl`), so
a grouping by precedence runs as the tree that is left when the same row is reduced two operands at
a time (`Terms.run_group`). That holds in every lawful monad, so also in one that logs which
operands run (`Terms.runLogged_group`).
-/

namespace MessageMapping

/-! ### Binary nodes -/

section

variable {m : Type → Type} [Monad m] {α : Type}

namespace Operator

/-- The right operand is run if the left one fails or is empty. -/
def fallBack (right : Computation m) : Except EvalError Value → m (Except EvalError Value)
  | .ok v => if v.isEmpty then right.run else pure (.ok v)
  | .error _ => right.run

def coalescePair (left right : Computation m) : Computation m :=
  ExceptT.mk do fallBack right (← left.run)

/-- Both operands have to be booleans; the right one is run if the left is not decisive. -/
def logicPair (decisive : Bool) (left right : Computation m) : Computation m := do
  if (← (← left).expectBool) = decisive then pure (.bool decisive)
  else pure (.bool (← (← right).expectBool))

/-- Runs two operands joined by an operator. -/
def runPair (op : Operator) (left right : Computation m) : Computation m :=
  match op with
  | .coalesce => coalescePair left right
  | .and => logicPair false left right
  | .or => logicPair true left right
  | op => do op.apply (← left) (← right)

theorem runPair_of_tier_le {op : Operator} (h : op.tier ≤ 2) (left right : Computation m) :
    op.runPair left right = (do op.apply (← left) (← right)) := by
  cases op <;> first | rfl | simp [tier] at h

theorem eq_of_tier_eq {op op' : Operator} (hop : 3 ≤ op.tier) (h : op'.tier = op.tier) :
    op' = op := by
  cases op <;> simp [tier] at hop <;> cases op' <;> simp [tier] at h ⊢

end Operator

/-- Runs a tree of computations. -/
def OpTree.run : OpTree (Computation m) → Computation m
  | leaf x => x
  | node op left right => op.runPair left.run right.run

theorem OpTree.run_map_chain (f : α → Computation m) (first : OpTree α)
    (rest : List (Operator × OpTree α)) :
    ((chain first rest).map f).run =
      (rest.map fun p => (p.1, (p.2.map f).run)).foldl
        (fun left p => p.1.runPair left p.2) (first.map f).run := by
  induction rest generalizing first with
  | nil => rfl
  | cons p rest ih => exact ih _

theorem Chain.run_of_tier_le {first : Computation m} {rest : List (Operator × Computation m)}
    (h : ∀ p ∈ rest, p.1.tier ≤ 2) : run first rest = first >>= fun v => fold v rest := by
  cases rest with
  | nil => rfl
  | cons p rest =>
    obtain ⟨op, x⟩ := p
    have hop : op.tier ≤ 2 := h _ List.mem_cons_self
    cases op <;> first | rfl | simp [Operator.tier] at hop

theorem Chain.logic_pair (decisive : Bool) (first next : Computation m) :
    logic decisive [first, next] = Operator.logicPair decisive first next := by
  simp only [logic, Operator.logicPair]
  refine bind_congr fun v => bind_congr fun b => ?_
  congr 1
  refine bind_congr fun w => bind_congr fun c => ?_
  -- an operand that is not decisive is the other boolean
  cases c <;> cases decisive <;> rfl

end

variable {m : Type → Type} [Monad m] [LawfulMonad m] {α : Type}

open Operator

/-! ### Chains -/

namespace Chain

theorem coalesce_coalescePair (first next : Computation m) (rest : List (Computation m)) :
    coalesce (coalescePair first next) rest = coalesce first (next :: rest) := by
  cases rest with
  | nil => rfl
  | cons x rest =>
    refine ExceptT.ext ?_
    simp only [coalesce, coalescePair, ExceptT.run_mk, bind_assoc]
    refine bind_congr fun r => ?_
    cases r with
    | ok v => by_cases hv : v.isEmpty = true <;> simp [fallBack, hv]
    | error e => rfl

theorem logic_logicPair (decisive : Bool) (first next : Computation m)
    (rest : List (Computation m)) :
    logic decisive (logicPair decisive first next :: rest) =
      logic decisive (first :: next :: rest) := by
  have hbool : ∀ b, (liftM (Value.bool b).expectBool : ExceptT EvalError m Bool) = pure b :=
    fun _ => rfl
  simp only [logic, logicPair, bind_assoc]
  refine bind_congr fun v => bind_congr fun b => ?_
  by_cases hb : b = decisive <;> simp [hb, hbool]

theorem run_nil (first : Computation m) : run first [] = first := by
  simp [run, fold]

theorem run_of_coalesce {first : Computation m} {rest : List (Operator × Computation m)}
    (h : ∀ p ∈ rest, p.1 = .coalesce) : run first rest = coalesce first (rest.map Prod.snd) := by
  cases rest with
  | nil => exact run_nil first
  | cons p rest =>
    obtain ⟨op, x⟩ := p
    obtain rfl : op = .coalesce := h _ List.mem_cons_self
    rfl

theorem run_cons_logic {decisive : Bool} {op : Operator}
    (hop : ∀ (x y : Computation m) rest,
      run x ((op, y) :: rest) = logic decisive (x :: y :: rest.map Prod.snd))
    (first next : Computation m) {rest : List (Operator × Computation m)}
    (h : ∀ p ∈ rest, p.1 = op) :
    run first ((op, next) :: rest) = run (logicPair decisive first next) rest := by
  cases rest with
  | nil => rw [hop, run_nil]; exact logic_pair decisive first next
  | cons p rest =>
    obtain ⟨op', x⟩ := p
    obtain rfl : op' = op := h _ List.mem_cons_self
    rw [hop, hop, logic_logicPair]
    rfl

theorem run_cons_eager {op : Operator} (hop : op.tier ≤ 2) (first next : Computation m)
    {rest : List (Operator × Computation m)} (h : ∀ p ∈ rest, p.1.tier = op.tier) :
    run first ((op, next) :: rest) = run (op.runPair first next) rest := by
  have hrest : ∀ p ∈ rest, p.1.tier ≤ 2 := fun p hp => h p hp ▸ hop
  rw [run_of_tier_le hrest, run_of_tier_le (List.forall_mem_cons.2 ⟨hop, hrest⟩),
    runPair_of_tier_le hop]
  simp only [fold, bind_assoc]

/-- The first two operands of a chain run as one. -/
theorem run_cons (op : Operator) (first next : Computation m)
    {rest : List (Operator × Computation m)} (h : ∀ p ∈ rest, p.1.tier = op.tier) :
    run first ((op, next) :: rest) = run (op.runPair first next) rest := by
  cases op with
  | coalesce =>
    have hrest : ∀ p ∈ rest, p.1 = .coalesce := fun p hp => eq_of_tier_eq (by decide) (h p hp)
    rw [run_of_coalesce hrest, run_of_coalesce (List.forall_mem_cons.2 ⟨rfl, hrest⟩)]
    exact (coalesce_coalescePair first next _).symm
  | and =>
    have hrest : ∀ p ∈ rest, p.1 = .and := fun p hp => eq_of_tier_eq (by decide) (h p hp)
    exact run_cons_logic (fun _ _ _ => rfl) first next hrest
  | or =>
    have hrest : ∀ p ∈ rest, p.1 = .or := fun p hp => eq_of_tier_eq (by decide) (h p hp)
    exact run_cons_logic (fun _ _ _ => rfl) first next hrest
  | _ => exact run_cons_eager (by decide) first next h

/-- A chain joins its operands from left to right. -/
theorem run_eq_foldl {tier : Nat} {rest : List (Operator × Computation m)}
    (h : ∀ p ∈ rest, p.1.tier = tier) (first : Computation m) :
    run first rest = rest.foldl (fun left p => p.1.runPair left p.2) first := by
  induction rest generalizing first with
  | nil => exact run_nil first
  | cons p rest ih =>
    obtain ⟨hp, hrest⟩ := List.forall_mem_cons.1 h
    rw [run_cons p.1 first p.2 fun q hq => (hrest q hq).trans hp.symm, ih hrest]
    rfl

end Chain

/-! ### Groupings and trees -/

namespace Terms

theorem run_map_chain (f : α → Computation m) (terms : Terms (Grouping α)) :
    (terms.chain.map f).run =
      Chain.run (terms.first.map f).run (terms.rest.map fun p => (p.1, (p.2.map f).run)) := by
  obtain ⟨first, rest⟩ := terms
  cases rest with
  | nil => simp [chain, Chain.run_nil]
  | cons p rest => simp [chain, Grouping.run_chain, Function.comp_def]

theorem run_groupBelow (f : α → Computation m) {tiers : Nat} {terms : Terms α}
    (h : terms.Below tiers) :
    ((groupBelow tiers terms).map f).run = ((reduceBelow tiers terms).first.map f).run := by
  induction tiers generalizing terms with
  | zero =>
    obtain ⟨first, rest⟩ := terms
    cases rest with
    | nil => rfl
    | cons p rest => exact absurd (h p List.mem_cons_self) (Nat.not_lt_zero _)
  | succ tier ih =>
    obtain ⟨hfirst, hrest⟩ := List.forall_mem_cons.1 h.splitAt
    have hpieces :
        (terms.splitAt tier).rest.map (fun p => (p.1, ((groupBelow tier p.2).map f).run)) =
          (terms.splitAt tier).rest.map fun p => (p.1, ((reduceBelow tier p.2).first.map f).run) :=
      List.map_congr_left fun p hp => by rw [ih (hrest p.2 (List.mem_map_of_mem hp))]
    have htier : ∀ p ∈ (terms.splitAt tier).rest.map fun p =>
        (p.1, ((reduceBelow tier p.2).first.map f).run), p.1.tier = tier := by
      intro p hp
      obtain ⟨q, hq, rfl⟩ := List.mem_map.1 hp
      exact tier_of_mem_splitAt q hq
    rw [reduceBelow_succ h, OpTree.run_map_chain, groupBelow, run_map_chain]
    simp only [map, List.map_map, Function.comp_def]
    rw [ih hfirst, hpieces, Chain.run_eq_foldl htier]

/-- A row grouped by precedence runs as the row reduced two operands at a time. -/
theorem run_group (f : α → Computation m) (terms : Terms α) :
    (terms.group.map f).run = (terms.collapse.map f).run :=
  run_groupBelow f terms.below_tiers

end Terms

/-! ### Which operands run -/

/-- Answers with an outcome and logs its number. -/
def logged (outcome : Except EvalError Value) (number : Nat) : Computation (StateM (List Nat)) :=
  ExceptT.mk fun log => (outcome, log ++ [number])

/-- The outcome of a grouping of numbered operands, and the numbers of the operands that run. -/
def Grouping.runLogged (outcome : α → Except EvalError Value) (g : Grouping (α × Nat)) :
    Except EvalError Value × List Nat :=
  (g.map fun p => logged (outcome p.1) p.2).run []

/-- The outcome of a tree of numbered operands, and the numbers of the operands that run. -/
def OpTree.runLogged (outcome : α → Except EvalError Value) (t : OpTree (α × Nat)) :
    Except EvalError Value × List Nat :=
  (t.map fun p => logged (outcome p.1) p.2).run []

theorem Terms.runLogged_group (outcome : α → Except EvalError Value) (terms : Terms (α × Nat)) :
    terms.group.runLogged outcome = terms.collapse.runLogged outcome :=
  congrFun (terms.run_group _) []

/-- `x` answers as `y` does in a scope, and logs some of the numbers in their order. -/
def Logs {β : Type} (numbers : List Nat) (x : ExceptT EvalError (StateM (List Nat)) β)
    (y : Scoped β) (s : Option Value) : Prop :=
  ∀ log, ∃ ran, ran.Sublist numbers ∧ x log = (y s, log ++ ran)

namespace Logs

variable {β γ : Type} {s : Option Value} {numbers numbers' : List Nat}

theorem pure (b : β) : Logs [] (Pure.pure b) (Pure.pure b) s :=
  fun log => ⟨[], .slnil, by rw [List.append_nil]; rfl⟩

theorem lift (x : Except EvalError β) : Logs [] (liftM x) (liftM x) s :=
  fun log => ⟨[], .slnil, by rw [List.append_nil]; cases x <;> rfl⟩

theorem bind {x : ExceptT EvalError (StateM (List Nat)) β} {y : Scoped β}
    {f : β → ExceptT EvalError (StateM (List Nat)) γ} {g : β → Scoped γ}
    (hx : Logs numbers x y s) (hf : ∀ b, Logs numbers' (f b) (g b) s) :
    Logs (numbers ++ numbers') (x >>= f) (y >>= g) s := by
  intro log
  obtain ⟨ran, hran, hx⟩ := hx log
  rw [Scoped.bind_apply]
  show ∃ ran, _ ∧ ExceptT.bindCont f (x log).1 (x log).2 = _
  rw [hx]
  cases y s with
  | ok b =>
    obtain ⟨ran', hran', hf⟩ := hf b (log ++ ran)
    exact ⟨ran ++ ran', hran.append hran', by rw [← List.append_assoc]; exact hf⟩
  | error e => exact ⟨ran, hran.trans (List.sublist_append_left _ _), rfl⟩

theorem mono {x : ExceptT EvalError (StateM (List Nat)) β} {y : Scoped β}
    (h : Logs numbers x y s) (hs : numbers.Sublist numbers') : Logs numbers' x y s := fun log =>
  let ⟨ran, hran, hx⟩ := h log; ⟨ran, hran.trans hs, hx⟩

variable {x x' : Computation (StateM (List Nat))} {y y' : Scoped Value}

theorem coalescePair (hx : Logs numbers x y s) (hx' : Logs numbers' x' y' s) :
    Logs (numbers ++ numbers') (coalescePair x x') (coalescePair y y') s := by
  intro log
  obtain ⟨ran, hran, hx⟩ := hx log
  have hright : ∃ all, all.Sublist (numbers ++ numbers') ∧
      x' (log ++ ran) = (y' s, log ++ all) := by
    obtain ⟨ran', hran', hx'⟩ := hx' (log ++ ran)
    exact ⟨ran ++ ran', hran.append hran', by rw [hx', List.append_assoc]⟩
  show ∃ all, _ ∧ fallBack x' (x log).1 (x log).2 = (fallBack y' (y s) s, log ++ all)
  rw [hx]
  cases y s with
  | ok v =>
    unfold fallBack
    by_cases hv : v.isEmpty = true
    · simp only [hv, if_true]
      exact hright
    · simp only [hv]
      exact ⟨ran, hran.trans (List.sublist_append_left _ _), rfl⟩
  | error e => exact hright

theorem logicPair (decisive : Bool) (hx : Logs numbers x y s) (hx' : Logs numbers' x' y' s) :
    Logs (numbers ++ numbers') (logicPair decisive x x') (logicPair decisive y y') s := by
  refine hx.bind fun v => (lift v.expectBool).bind fun b => ?_
  split
  · exact (pure _).mono (List.nil_sublist _)
  · exact (hx'.bind fun w => (lift w.expectBool).bind fun c => pure _).mono (by simp)

theorem runPair (op : Operator) (hx : Logs numbers x y s) (hx' : Logs numbers' x' y' s) :
    Logs (numbers ++ numbers') (op.runPair x x') (op.runPair y y') s := by
  cases op with
  | coalesce => exact hx.coalescePair hx'
  | and => exact hx.logicPair false hx'
  | or => exact hx.logicPair true hx'
  | _ => exact hx.bind fun v => (hx'.bind fun w => lift (Operator.apply _ v w)).mono (by simp)

end Logs

theorem OpTree.logs (f : α → Scoped Value) (s : Option Value) (t : OpTree (α × Nat)) :
    Logs (t.leaves.map Prod.snd) (t.map fun p => logged (f p.1 s) p.2).run
      (t.map fun p => f p.1).run s := by
  induction t with
  | leaf p => exact fun log => ⟨[p.2], .refl _, rfl⟩
  | node op left right ihl ihr =>
    rw [leaves, List.map_append]
    exact ihl.runPair op ihr

namespace Expr

/-- An arithmetic expression answers as its operands reduced two at a time do, and both run the
same operands, from left to right and each at most once. -/
theorem arithmetic_eq_collapse {ν : Type} {operands : List (Expr ν)} {operators : List Operator}
    (h : operands.length = operators.length + 1) :
    ∃ terms : Terms (Expr ν × Nat), Terms.ofLists? operands.zipIdx operators = .ok terms ∧
      Grouping.ofLists? operands operators = .ok (terms.group.map Prod.fst) ∧
      ∀ (env : Surroundings) (call : ν → Scoped Value) (s : Option Value),
        let outcome := fun e => eval env call e s
        terms.group.runLogged outcome = terms.collapse.runLogged outcome ∧
        (terms.collapse.runLogged outcome).1 =
          eval env call (.arithmetic (terms.group.map Prod.fst)) s ∧
        (terms.collapse.runLogged outcome).2.Pairwise (· < ·) := by
  have hn : operands.zipIdx.length = operators.length + 1 := by rw [List.length_zipIdx, h]
  obtain ⟨terms, hterms, hoperands⟩ := Terms.ofLists?_of_length hn
  have hgroup : Grouping.ofLists? operands operators = .ok (terms.group.map Prod.fst) := by
    have hfst := Terms.ofLists?_map Prod.fst operands.zipIdx operators
    rw [List.zipIdx_map_fst, hterms] at hfst
    rw [Grouping.ofLists?, hfst, ← Terms.group_map]
    rfl
  refine ⟨terms, hterms, hgroup, fun env call s => ?_⟩
  obtain ⟨ran, hran, hlog⟩ := terms.collapse.logs (eval env call) s []
  refine ⟨terms.runLogged_group _, ?_, ?_⟩
  · rw [eval_arithmetic, Grouping.map_map, terms.run_group, OpTree.runLogged, hlog]
  · rw [OpTree.runLogged, hlog]
    rw [Terms.leaves_collapse, hoperands, List.zipIdx_map_snd] at hran
    exact List.Pairwise.sublist hran List.pairwise_lt_range'

/-- In `x | 1 < 2 || y` without a variable `x`, the comparison decides and `y` is not run. -/
theorem arithmetic_eq_collapse_skips :
    let operands : List (Expr Empty) :=
      [.var "x", .literal (.number (.int 1)), .literal (.number (.int 2)), .var "y"]
    let operators : List Operator := [.coalesce, .lt, .or]
    operands.length = operators.length + 1 ∧ ∃ terms : Terms (Expr Empty × Nat),
      Grouping.ofLists? operands operators = .ok (terms.group.map Prod.fst) ∧
      eval ⟨⟨[]⟩, 0, []⟩ nofun (.arithmetic (terms.group.map Prod.fst)) none = .ok (.bool true) ∧
      (terms.group.runLogged fun e => eval ⟨⟨[]⟩, 0, []⟩ nofun e none).2 = [0, 1, 2] := by
  intro operands operators
  refine ⟨rfl, ?_⟩
  obtain ⟨terms, hterms, hgroup, hrun⟩ := @arithmetic_eq_collapse _ operands operators rfl
  obtain ⟨hlog, heval, -⟩ := hrun ⟨⟨[]⟩, 0, []⟩ nofun none
  obtain rfl := Except.ok.inj hterms
  refine ⟨_, hgroup, ?_, ?_⟩
  · rw [← heval]; rfl
  · rw [hlog]; rfl

end Expr

end MessageMapping
