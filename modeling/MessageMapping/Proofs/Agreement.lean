import MessageMapping.Expr.Eval
import MessageMapping.Proofs.Compatibility

/-!
# Evaluations that agree

`Agree E` relates two outcomes: they are one value, or errors that `E` relates. No construct of the
language looks into the error of a subexpression, it only passes it on, wraps it or drops it, so
agreement of the leaves of an expression (`LeavesAgree`) is agreement of the whole (`eval_agree`).
The two evaluations may differ in their surroundings, in their maps and, for the fields in the
scope of the whole, in their scope; inside a match on a context both have the same scoped value.
-/

namespace MessageMapping

/-! ### Computations in a scope -/

namespace Scoped

variable {α β : Type} (s : Option Value)

@[simp] theorem lift_apply (x : Except EvalError α) : (liftM x : Scoped α) s = x := by
  cases x <;> rfl

@[simp] theorem bind_apply (x : Scoped α) (f : α → Scoped β) :
    (x >>= f) s = (x s >>= fun a => f a s : Except EvalError β) := by
  show ExceptT.bindCont f (x s) s = _
  cases x s <;> rfl

@[simp] theorem adapt_apply (f : EvalError → EvalError) (x : Scoped α) :
    (ExceptT.adapt f x : Scoped α) s = Except.mapError f (x s) := rfl

@[simp] theorem ite_apply (c : Prop) [Decidable c] (x y : Scoped α) :
    (if c then x else y) s = if c then x s else y s := by
  split <;> rfl

end Scoped

/-! ### Agreement of outcomes -/

variable {E : EvalError → EvalError → Prop} {α β : Type}

/-- The outcomes are one value, or errors that `E` relates. -/
inductive Agree (E : EvalError → EvalError → Prop) :
    Except EvalError α → Except EvalError α → Prop
  | ok (a : α) : Agree E (.ok a) (.ok a)
  | error {e e' : EvalError} (h : E e e') : Agree E (.error e) (.error e')

/-- Relations of errors that evaluation keeps. -/
structure ErrorCongruence (E : EvalError → EvalError → Prop) : Prop where
  apply : ∀ op a b e, Operator.apply op a b = .error e → E e e
  expectBool : ∀ v e, Value.expectBool v = .error e → E e e
  ifCondition : ∀ e e', E e e' → E (.ifCondition e) (.ifCondition e')
  matchCase : ∀ i e e', E e e' → E (.matchCase i e) (.matchCase i e')

theorem ErrorCongruence.eq : ErrorCongruence (· = ·) :=
  ⟨by simp, by simp, by simp, by simp⟩

theorem ErrorCongruence.any : ErrorCongruence fun _ _ => True :=
  ⟨by simp, by simp, by simp, by simp⟩

namespace Agree

variable {x y : Except EvalError α}

theorem of_refl (h : ∀ e, x = .error e → E e e) : Agree E x x := by
  cases x with
  | ok a => exact .ok a
  | error e => exact .error (h e rfl)

theorem any_refl (x : Except EvalError α) : Agree (fun _ _ => True) x x :=
  of_refl fun _ _ => trivial

theorem of_eq (h : x = y) : Agree (· = ·) x y :=
  h ▸ of_refl fun _ _ => rfl

theorem eq (h : Agree (· = ·) x y) : x = y := by
  cases h with
  | ok a => rfl
  | error h => rw [h]

theorem toOption_eq (h : Agree E x y) : x.toOption = y.toOption := by
  cases h <;> rfl

theorem bind {f g : α → Except EvalError β} (h : Agree E x y) (hf : ∀ a, Agree E (f a) (g a)) :
    Agree E (x >>= f) (y >>= g) := by
  cases h with
  | ok a => exact hf a
  | error h => exact .error h

theorem mapError {f : EvalError → EvalError} (h : Agree E x y)
    (hf : ∀ e e', E e e' → E (f e) (f e')) : Agree E (x.mapError f) (y.mapError f) := by
  cases h with
  | ok a => exact .ok a
  | error h => exact .error (hf _ _ h)

end Agree

/-! ### Chains and groupings -/

variable {s s' : Option Value}

namespace Chain

theorem coalesce_cons_apply (first next : Scoped Value) (rest : List (Scoped Value))
    (s : Option Value) :
    (coalesce first (next :: rest) : Scoped Value) s =
      match first s with
      | .ok v => if v.isEmpty then coalesce next rest s else .ok v
      | .error _ => coalesce next rest s := by
  simp only [coalesce]
  show (match first s with | .ok v => _ | .error _ => _ : ReaderM (Option Value) _) s = _
  cases first s with
  | ok v => by_cases h : v.isEmpty = true <;> simp [h] <;> rfl
  | error e => rfl

end Chain

theorem ErrorCongruence.compatible (hE : ErrorCongruence E) (s s' : Option Value) :
    Compatible fun (x y : Scoped _) => Agree E (x s) (y s') where
  pure v := .ok v
  bind hx hf := by
    simp only [Scoped.bind_apply]
    exact hx.bind hf
  expectBool v := by
    simp only [Scoped.lift_apply]
    exact .of_refl (hE.expectBool v)
  apply op v w := by
    simp only [Scoped.lift_apply]
    exact .of_refl (hE.apply op v w)
  coalesce {x next y next'} hx hnext := by
    simp only [Chain.coalesce_cons_apply, Chain.coalesce_nil]
    generalize x s = left, y s' = left' at hx
    cases hx with
    | ok v =>
      by_cases hv : v.isEmpty = true
      · simpa [hv] using hnext
      · simpa [hv] using .ok v
    | error _ => exact hnext

theorem Grouping.run_agree {ι : Type} (hE : ErrorCongruence E) {f f' : ι → Scoped Value}
    (g : Grouping ι) (h : ∀ a ∈ g.operands, Agree E (f a s) (f' a s')) :
    Agree E ((g.map f).run s) ((g.map f').run s') :=
  g.run_compatible (hE.compatible s s') h

/-! ### Expressions -/

namespace Expr

variable {ν : Type} {env env' : Surroundings} {call call' : ν → Scoped Value} {e : Expr ν}

theorem evalOperands_eq_map (env : Surroundings) (call : ν → Scoped Value)
    (g : Grouping (Expr ν)) : evalOperands env call g = g.map (eval env call) := by
  induction g using Grouping.induct with
  | operand e => simp [evalOperands]
  | chain first rest ihf ihr =>
    rw [evalOperands_chain, Grouping.map_chain, ihf]
    congr 1
    exact List.map_congr_left fun p hp => by rw [ihr p hp]

theorem eval_arithmetic (env : Surroundings) (call : ν → Scoped Value) (g : Grouping (Expr ν)) :
    eval env call (.arithmetic g) = (g.map (eval env call)).run := by
  rw [eval, evalOperands_eq_map]

section

-- the two sides may name their maps differently
variable {μ : Type} {call' : μ → Scoped Value}

theorem evalCases_agree (hE : ErrorCongruence E) {cases : List (Case (Expr ν))}
    {cases' : List (Case (Expr μ))}
    (h : List.Forall₂ (fun c c' =>
      Agree E (eval env call c.query s) (eval env' call' c'.query s') ∧
      Agree E (eval env call c.result s) (eval env' call' c'.result s')) cases cases')
    (index : Nat) :
    Agree E (evalCases env call index cases s) (evalCases env' call' index cases' s') := by
  induction h generalizing index with
  | nil => exact .ok _
  | @cons c c' _ _ hc _ ih =>
    obtain ⟨hq, hr⟩ := hc
    simp only [evalCases, Scoped.bind_apply, Scoped.adapt_apply, Scoped.lift_apply,
      Scoped.ite_apply]
    refine Agree.bind (.mapError (hq.bind fun v => .of_refl (hE.expectBool v))
      (hE.matchCase index)) fun holds => ?_
    split
    · exact hr
    · exact ih (index + 1)

theorem conditional_agree (hE : ErrorCongruence E) {c t : Expr ν} {c' t' : Expr μ}
    {a : Option (Expr ν)} {a' : Option (Expr μ)}
    (hc : Agree E (eval env call c s) (eval env' call' c' s'))
    (ht : Agree E (eval env call t s) (eval env' call' t' s'))
    (ha : Option.Rel (fun e e' => Agree E (eval env call e s) (eval env' call' e' s')) a a') :
    Agree E (eval env call (.conditional c t a) s)
      (eval env' call' (.conditional c' t' a') s') := by
  have hholds := (hc.bind fun v => .of_refl (hE.expectBool v)).mapError hE.ifCondition
  cases ha with
  | none =>
    simp only [eval, Scoped.bind_apply, Scoped.adapt_apply, Scoped.lift_apply, Scoped.ite_apply]
    refine hholds.bind fun holds => ?_
    split
    · exact ht
    · exact .ok _
  | some ha =>
    simp only [eval, Scoped.bind_apply, Scoped.adapt_apply, Scoped.lift_apply, Scoped.ite_apply]
    refine hholds.bind fun holds => ?_
    split
    · exact ht
    · exact ha

/-- The context has one value in both evaluations, which is the scope of all cases. -/
theorem switch_agree (hE : ErrorCongruence E) {x : Expr ν} {x' : Expr μ}
    {cases : List (Case (Expr ν))} {cases' : List (Case (Expr μ))}
    (hx : Agree E (eval env call x s) (eval env' call' x' s'))
    (h : ∀ v, List.Forall₂ (fun c c' =>
      Agree E (eval env call c.query (some v)) (eval env' call' c'.query (some v)) ∧
      Agree E (eval env call c.result (some v)) (eval env' call' c'.result (some v)))
      cases cases') :
    Agree E (eval env call (.switch (some x) cases) s)
      (eval env' call' (.switch (some x') cases') s') := by
  simp only [eval, Scoped.bind_apply]
  exact hx.bind fun v => evalCases_agree hE (h v) 0

theorem not_agree (hE : ErrorCongruence E) {e : Expr ν} {e' : Expr μ}
    (h : Agree E (eval env call e s) (eval env' call' e' s')) :
    Agree E (eval env call (.not e) s) (eval env' call' (.not e') s') := by
  simp only [eval, Scoped.bind_apply, Scoped.lift_apply]
  exact h.bind fun v => (Agree.of_refl (hE.expectBool v)).bind fun b => .ok _

end

/-- Two evaluations agree on what an expression reads and applies; its own fields and
applications are in the scopes `s` and `s'`, those in cases in some common scope. -/
structure LeavesAgree (E : EvalError → EvalError → Prop) (env env' : Surroundings)
    (call call' : ν → Scoped Value) (s s' : Option Value) (e : Expr ν) : Prop where
  field : ∀ p, InScope (.field p) e → Agree E (env.field p s) (env'.field p s')
  innerField : ∀ p, Within (.field p) e → ∀ v,
    Agree E (env.field p (some v)) (env'.field p (some v))
  document : ∀ p, Within (.document p) e →
    Agree E (env.batch.document env.index p) (env'.batch.document env'.index p)
  metadata : ∀ k, Within (.metadata k) e →
    Agree E (env.batch.metadata env.index k) (env'.batch.metadata env'.index k)
  var : ∀ n, Within (.var n) e → Agree E (env.var n) (env'.var n)
  apply : ∀ n, InScope (.apply n) e → Agree E (call n s) (call' n s')
  innerApply : ∀ n, Within (.apply n) e → ∀ v, Agree E (call n (some v)) (call' n (some v))

namespace LeavesAgree

theorem branch (h : LeavesAgree E env env' call call' s s' e) {b : Branch ν}
    (hb : b ∈ e.branches) (hs : b.inScope = true) :
    LeavesAgree E env env' call call' s s' b.expr where
  field p hp := h.field p (.branch hb hs hp)
  innerField p hp := h.innerField p (.branch hb hp)
  document p hp := h.document p (.branch hb hp)
  metadata k hk := h.metadata k (.branch hb hk)
  var n hn := h.var n (.branch hb hn)
  apply n hn := h.apply n (.branch hb hs hn)
  innerApply n hn := h.innerApply n (.branch hb hn)

/-- A branch in a scope of its own, the same in both evaluations. -/
theorem inner (h : LeavesAgree E env env' call call' s s' e) {b : Branch ν}
    (hb : b ∈ e.branches) (v : Value) :
    LeavesAgree E env env' call call' (some v) (some v) b.expr where
  field p hp := h.innerField p (.branch hb hp.occurs.within) v
  innerField p hp := h.innerField p (.branch hb hp)
  document p hp := h.document p (.branch hb hp)
  metadata k hk := h.metadata k (.branch hb hk)
  var n hn := h.var n (.branch hb hn)
  apply n hn := h.innerApply n (.branch hb hn.occurs.within) v
  innerApply n hn := h.innerApply n (.branch hb hn)

end LeavesAgree

/-- Evaluations that agree on the leaves of an expression agree on the expression. -/
theorem eval_agree (hE : ErrorCongruence E) (h : LeavesAgree E env env' call call' s s' e) :
    Agree E (eval env call e s) (eval env' call' e s') := by
  induction e using induct generalizing s s' with
  | literal v => exact .ok v
  | field p => exact h.field p .self
  | document p => simpa [eval] using h.document p (.refl _)
  | metadata k => simpa [eval] using h.metadata k (.refl _)
  | var n => simpa [eval] using h.var n (.refl _)
  | arithmetic g ih =>
    rw [eval_arithmetic, eval_arithmetic]
    refine g.run_agree hE fun a ha => ih a ha (h.branch (b := ⟨[], true, a⟩) ?_ rfl)
    simpa [branches] using ha
  | conditional c t a ihc iht iha =>
    refine conditional_agree hE (ihc (h.branch (b := ⟨[], true, c⟩) (by simp [branches]) rfl))
      (iht (h.branch (b := ⟨[], true, t⟩) (by simp [branches]) rfl)) ?_
    cases a with
    | none => exact .none
    | some a => exact .some (iha a rfl (h.branch (b := ⟨[], true, a⟩) (by simp [branches]) rfl))
  | switch context cases ihx ihc =>
    cases context with
    | none =>
      refine evalCases_agree hE (List.forall₂_same.2 fun c hc => ?_) 0
      have hb := mem_caseBranches hc [] true
      exact ⟨(ihc c hc).1 (h.branch hb.1 rfl), (ihc c hc).2 (h.branch hb.2 rfl)⟩
    | some x =>
      refine switch_agree hE (ihx x rfl (h.branch (b := ⟨[], true, x⟩) (by simp [branches]) rfl))
        fun v => List.forall₂_same.2 fun c hc => ?_
      have hb := mem_caseBranches hc x.base false
      exact ⟨(ihc c hc).1 (h.inner (List.mem_append_left _ hb.1) v),
        (ihc c hc).2 (h.inner (List.mem_append_left _ hb.2) v)⟩
  | not e ih => exact not_agree hE (ih (h.branch (b := ⟨[], true, e⟩) (by simp [branches]) rfl))
  | apply n => exact h.apply n .self

end Expr

end MessageMapping
