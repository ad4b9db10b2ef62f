import MessageMapping.Proofs.Agreement

/-!
# Properties that evaluation keeps

`Ensures P Q` says that an outcome is a value with `P` or an error with `Q`. If the steps of
evaluation keep these properties (`Kept`), and all that an expression reads has them
(`ReadsEnsure`), then its outcome has them (`eval_ensures`), also through nested applications
(`run_ensures`). Of the operators only those count that are applied to two values: coalescing and
logic choose among operands instead.
-/

namespace MessageMapping

/-! ### Outcomes -/

variable {α β : Type} {O : Operator → Prop} {P : Value → Prop} {Q : EvalError → Prop}

/-- The outcome is a value with `P`, or an error with `Q`. -/
def Ensures (P : α → Prop) (Q : EvalError → Prop) : Except EvalError α → Prop
  | .ok a => P a
  | .error e => Q e

namespace Ensures

theorem bind {P : α → Prop} {R : β → Prop} {x : Except EvalError α} {f : α → Except EvalError β}
    (hx : Ensures P Q x) (hf : ∀ a, P a → Ensures R Q (f a)) : Ensures R Q (x >>= f) := by
  cases x with
  | ok a => exact hf a hx
  | error e => exact hx

theorem mapError {P : α → Prop} {x : Except EvalError α} {f : EvalError → EvalError}
    (hx : Ensures P Q x) (hf : ∀ e, Q e → Q (f e)) : Ensures P Q (x.mapError f) := by
  cases x with
  | ok a => exact hx
  | error e => exact hf e hx

theorem of_ok {P : α → Prop} {x : Except EvalError α} (h : ∀ a, x = .ok a → P a) :
    Ensures P (fun _ => True) x := by
  cases x with
  | ok a => exact h a rfl
  | error e => trivial

theorem of_error {x : Except EvalError α} (h : ∀ e, x = .error e → Q e) :
    Ensures (fun _ => True) Q x := by
  cases x with
  | ok a => trivial
  | error e => exact h e rfl

end Ensures

/-- Properties of values and errors that each step of evaluation keeps, if no operators are applied
but those with `O`. -/
structure Kept (O : Operator → Prop) (P : Value → Prop) (Q : EvalError → Prop) : Prop where
  bool : ∀ b, P (.bool b)
  absent : P .absent
  expectBool : ∀ v, P v → Ensures (fun _ => True) Q v.expectBool
  apply : ∀ op v w, O op → P v → P w → Ensures P Q (op.apply v w)
  ifCondition : ∀ e, Q e → Q (.ifCondition e)
  matchCase : ∀ i e, Q e → Q (.matchCase i e)

/-! ### Chains and groupings -/

namespace Chain

/-- The operators of a chain that are applied to values. -/
def applied {α : Type u} (rest : List (Operator × α)) : List Operator :=
  match rest with
  | (.coalesce, _) :: _ => []
  | (.and, _) :: _ => []
  | (.or, _) :: _ => []
  | _ => rest.map Prod.fst

theorem applied_map {α β : Type u} (f : α → β) (rest : List (Operator × α)) :
    applied (rest.map fun p => (p.1, f p.2)) = applied rest := by
  cases rest with
  | nil => rfl
  | cons p rest =>
    obtain ⟨op, a⟩ := p
    cases op <;> simp [applied]

variable {s : Option Value} {first : Scoped Value}

theorem coalesce_ensures {rest : List (Scoped Value)} (h : Ensures P Q (first s))
    (hs : ∀ x ∈ rest, Ensures P Q (x s)) : Ensures P Q (coalesce first rest s) := by
  induction rest generalizing first with
  | nil => exact h
  | cons next rest ih =>
    obtain ⟨hnext, hrest⟩ := List.forall_mem_cons.1 hs
    rw [coalesce_cons_apply]
    cases hx : first s with
    | error e => exact ih hnext hrest
    | ok v =>
      by_cases hv : v.isEmpty = true
      · simpa [hv] using ih hnext hrest
      · rw [hx] at h
        simpa [hv] using h

theorem logic_ensures (hK : Kept O P Q) (decisive : Bool) {operands : List (Scoped Value)}
    (hs : ∀ x ∈ operands, Ensures P Q (x s)) : Ensures P Q (logic decisive operands s) := by
  induction operands with
  | nil => exact hK.bool _
  | cons x rest ih =>
    obtain ⟨hx, hrest⟩ := List.forall_mem_cons.1 hs
    simp only [logic, Scoped.bind_apply, Scoped.lift_apply, Scoped.ite_apply]
    refine hx.bind fun v hv => (hK.expectBool v hv).bind fun b _ => ?_
    split
    · exact hK.bool _
    · exact ih hrest

theorem fold_ensures (hK : Kept O P Q) {rest : List (Operator × Scoped Value)}
    (ho : ∀ p ∈ rest, O p.1) (hs : ∀ p ∈ rest, Ensures P Q (p.2 s)) {left : Value} (h : P left) :
    Ensures P Q (fold left rest s) := by
  induction rest generalizing left with
  | nil => exact h
  | cons p rest ih =>
    obtain ⟨op, x⟩ := p
    obtain ⟨hop, horest⟩ := List.forall_mem_cons.1 ho
    obtain ⟨hx, hrest⟩ := List.forall_mem_cons.1 hs
    simp only [fold, Scoped.bind_apply, Scoped.lift_apply]
    exact hx.bind fun v hv => (hK.apply op left v hop h hv).bind fun _ => ih horest hrest

theorem run_ensures (hK : Kept O P Q) {rest : List (Operator × Scoped Value)}
    (ho : ∀ op ∈ applied rest, O op) (h : Ensures P Q (first s))
    (hs : ∀ p ∈ rest, Ensures P Q (p.2 s)) : Ensures P Q (run first rest s) := by
  have hsnd : ∀ x ∈ rest.map Prod.snd, Ensures P Q (x s) := List.forall_mem_map.2 hs
  have hfold : applied rest = rest.map Prod.fst →
      Ensures P Q ((first >>= fun v => fold v rest : Scoped Value) s) := by
    intro happlied
    rw [happlied, List.forall_mem_map] at ho
    rw [Scoped.bind_apply]
    exact h.bind fun v hv => fold_ensures hK ho hs hv
  cases rest with
  | nil => exact hfold rfl
  | cons p rest =>
    obtain ⟨op, x⟩ := p
    cases op with
    | coalesce => exact coalesce_ensures h hsnd
    | and => exact logic_ensures hK false (List.forall_mem_cons.2 ⟨h, hsnd⟩)
    | or => exact logic_ensures hK true (List.forall_mem_cons.2 ⟨h, hsnd⟩)
    | _ => exact hfold rfl

end Chain

namespace Grouping

/-- Some chain of the grouping applies the operator to values. -/
inductive Applies {α : Type u} (op : Operator) : Grouping α → Prop
  | chain {first : Grouping α} {rest : List (Operator × Grouping α)}
    (h : op ∈ Chain.applied rest) : Applies op (.chain first rest)
  | first {first : Grouping α} {rest : List (Operator × Grouping α)} (h : Applies op first) :
    Applies op (.chain first rest)
  | rest {first : Grouping α} {rest : List (Operator × Grouping α)}
    {p : Operator × Grouping α} (hp : p ∈ rest) (h : Applies op p.2) :
    Applies op (.chain first rest)

theorem run_ensures (hK : Kept O P Q) {ι : Type} {f : ι → Scoped Value} {s : Option Value}
    {g : Grouping ι} (ho : ∀ op, g.Applies op → O op)
    (h : ∀ a ∈ g.operands, Ensures P Q (f a s)) : Ensures P Q ((g.map f).run s) := by
  induction g using induct with
  | operand a => simpa [run] using h a (by simp)
  | chain first rest ihf ihr =>
    simp only [operands_chain, List.mem_append, List.mem_flatMap] at h
    rw [map_chain, run_chain, List.map_map]
    refine Chain.run_ensures hK (fun op hop => ho op (.chain ?_))
      (ihf (fun op hop => ho op (.first hop)) fun a ha => h a (.inl ha)) ?_
    · rwa [← Chain.applied_map fun g : Grouping ι => (g.map f).run]
    · refine List.forall_mem_map.2 fun p hp => ?_
      exact ihr p hp (fun op hop => ho op (.rest hp hop)) fun a ha => h a (.inr ⟨p, hp, ha⟩)

end Grouping

/-! ### Expressions -/

namespace Expr

/-- Some chain in the expression applies the operator to values. -/
def Applies {ν : Type u} (op : Operator) (e : Expr ν) : Prop :=
  ∃ g, Within (.arithmetic g) e ∧ g.Applies op

variable {ν : Type} {env : Surroundings} {call : ν → Scoped Value} {e : Expr ν}

/-- What an expression holds, reads in scopes with `P`, and applies keeps the properties. -/
structure ReadsEnsure (O : Operator → Prop) (P : Value → Prop) (Q : EvalError → Prop)
    (env : Surroundings) (e : Expr ν) : Prop where
  literal : ∀ v, Within (.literal v) e → P v
  field : ∀ p, Within (.field p) e → ∀ s, (∀ v ∈ s, P v) → Ensures P Q (env.field p s)
  document : ∀ p, Within (.document p) e → Ensures P Q (env.batch.document env.index p)
  metadata : ∀ k, Within (.metadata k) e → Ensures P Q (env.batch.metadata env.index k)
  var : ∀ n, Within (.var n) e → Ensures P Q (env.var n)
  operator : ∀ op, e.Applies op → O op

theorem ReadsEnsure.branch (h : ReadsEnsure O P Q env e) {b : Branch ν} (hb : b ∈ e.branches) :
    ReadsEnsure O P Q env b.expr where
  literal v hv := h.literal v (.branch hb hv)
  field p hp := h.field p (.branch hb hp)
  document p hp := h.document p (.branch hb hp)
  metadata k hk := h.metadata k (.branch hb hk)
  var n hn := h.var n (.branch hb hn)
  operator op hop := h.operator op (let ⟨g, hg, hop⟩ := hop; ⟨g, .branch hb hg, hop⟩)

theorem evalCases_ensures (hK : Kept O P Q) {cases : List (Case (Expr ν))} {s : Option Value}
    (h : ∀ c ∈ cases, Ensures P Q (eval env call c.query s) ∧
      Ensures P Q (eval env call c.result s)) (index : Nat) :
    Ensures P Q (evalCases env call index cases s) := by
  induction cases generalizing index with
  | nil => exact hK.absent
  | cons c rest ih =>
    obtain ⟨⟨hq, hr⟩, hrest⟩ := List.forall_mem_cons.1 h
    simp only [evalCases, Scoped.bind_apply, Scoped.adapt_apply, Scoped.lift_apply,
      Scoped.ite_apply]
    refine Ensures.bind ((hq.bind hK.expectBool).mapError (hK.matchCase index)) fun holds _ => ?_
    split
    · exact hr
    · exact ih hrest (index + 1)

/-- Evaluation in a scope with `P` keeps the properties. -/
theorem eval_ensures (hK : Kept O P Q) (h : ReadsEnsure O P Q env e)
    (hcall : ∀ n s, (∀ v ∈ s, P v) → Ensures P Q (call n s)) {s : Option Value}
    (hs : ∀ v ∈ s, P v) : Ensures P Q (eval env call e s) := by
  induction e using induct generalizing s with
  | literal v => exact h.literal v (.refl _)
  | field p => exact h.field p (.refl _) s hs
  | document p => simpa [eval] using h.document p (.refl _)
  | metadata k => simpa [eval] using h.metadata k (.refl _)
  | var n => simpa [eval] using h.var n (.refl _)
  | arithmetic g ih =>
    rw [eval_arithmetic]
    refine g.run_ensures hK (fun op hop => h.operator op ⟨g, .refl _, hop⟩) fun a ha => ?_
    exact ih a ha (h.branch (b := ⟨[], true, a⟩) (by simpa [branches] using ha)) hs
  | conditional c t a ihc iht iha =>
    have hc := ihc (h.branch (b := ⟨[], true, c⟩) (by simp [branches])) hs
    have ht := iht (h.branch (b := ⟨[], true, t⟩) (by simp [branches])) hs
    have hholds := (hc.bind hK.expectBool).mapError hK.ifCondition
    cases a with
    | none =>
      simp only [eval, Scoped.bind_apply, Scoped.adapt_apply, Scoped.lift_apply, Scoped.ite_apply]
      refine hholds.bind fun holds _ => ?_
      split
      · exact ht
      · exact hK.absent
    | some a =>
      have ha := iha a rfl (h.branch (b := ⟨[], true, a⟩) (by simp [branches])) hs
      simp only [eval, Scoped.bind_apply, Scoped.adapt_apply, Scoped.lift_apply, Scoped.ite_apply]
      refine hholds.bind fun holds _ => ?_
      split
      · exact ht
      · exact ha
  | switch context cases ihx ihc =>
    cases context with
    | none =>
      refine evalCases_ensures hK (fun c hc => ?_) 0
      have hb := mem_caseBranches hc [] true
      exact ⟨(ihc c hc).1 (h.branch hb.1) hs, (ihc c hc).2 (h.branch hb.2) hs⟩
    | some x =>
      have hx := ihx x rfl (h.branch (b := ⟨[], true, x⟩) (by simp [branches])) hs
      simp only [eval, Scoped.bind_apply]
      refine hx.bind fun v hv => evalCases_ensures hK (fun c hc => ?_) 0
      have hb := mem_caseBranches hc x.base false
      have hscope : ∀ w ∈ some v, P w := fun w hw => Option.mem_some.1 hw ▸ hv
      exact ⟨(ihc c hc).1 (h.branch (List.mem_append_left _ hb.1)) hscope,
        (ihc c hc).2 (h.branch (List.mem_append_left _ hb.2)) hscope⟩
  | not e ih =>
    have he := ih (h.branch (b := ⟨[], true, e⟩) (by simp [branches])) hs
    simp only [eval, Scoped.bind_apply, Scoped.lift_apply]
    exact he.bind fun v hv => (hK.expectBool v hv).bind fun b _ => hK.bool _
  | apply n => exact hcall n s hs

/-- Runs keep the properties if the root and all maps read what has them. -/
theorem run_ensures {maps : Entries (Expr String)} {e : Expr String} (hK : Kept O P Q)
    (hmissing : ∀ n, maps.get? n = none → Q (.undefinedMap n))
    (hdeep : ∀ n body, maps.get? n = some body → Q (.recursionLimit n))
    (hmaps : ∀ n body, maps.get? n = some body → ReadsEnsure O P Q env body) (budget : Nat)
    (he : ReadsEnsure O P Q env e) {s : Option Value} (hs : ∀ v ∈ s, P v) :
    Ensures P Q (run env maps budget e s) := by
  induction budget generalizing e s with
  | zero =>
    refine eval_ensures hK he (fun n s _ => ?_) hs
    cases hn : maps.get? n with
    | none => exact hmissing n hn
    | some body => exact hdeep n body hn
  | succ budget ih =>
    refine eval_ensures hK he (fun n s hs => ?_) hs
    cases hn : maps.get? n with
    | none => exact hmissing n hn
    | some body => exact ih (hmaps n body hn) hs

end Expr

end MessageMapping
