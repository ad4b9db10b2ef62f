import MessageMapping.Expr.Targets
import MessageMapping.Proofs.Agreement

/-!
# Cases as nested conditionals

A match without a context tries its cases in the scope it stands in, which is what a `cascade` of
conditionals does, each in the alternative of the one before. Both take the result of the first case
whose query holds, as it is. They differ in the error of a query that fails: the match counts the
cases before it, the cascade does not.
-/

namespace MessageMapping

namespace Expr

section

variable {ν : Type u}

/-- The cases as conditionals, each in the alternative of the one before. -/
def cascade : List (Case (Expr ν)) → Expr ν
  | [] => .literal .absent
  | [c] => .conditional c.query c.result none
  | c :: next :: rest => .conditional c.query c.result (some (cascade (next :: rest)))

theorem targets_cascade (cases : List (Case (Expr ν))) :
    (cascade cases).targets = (switch none cases).targets := by
  rw [targets]
  induction cases with
  | nil => rfl
  | cons c rest ih =>
    rw [caseTargets, ← ih]
    cases rest with
    | nil => simp [cascade, targets]
    | cons next rest => rw [cascade, targets]

end

variable {ν : Type} {env : Surroundings} {call : ν → Scoped Value} {s : Option Value}
  {c : Case (Expr ν)} {before rest : List (Case (Expr ν))}

/-- Whether a query holds, or why it cannot be said. -/
def ask (env : Surroundings) (call : ν → Scoped Value) (query : Expr ν) (s : Option Value) :
    Except EvalError Bool :=
  eval env call query s >>= Value.expectBool

/-! ### One case -/

theorem evalCases_cons (index : Nat) :
    evalCases env call index (c :: rest) s =
      ((ask env call c.query s).mapError (.matchCase index) >>= fun holds =>
        if holds then eval env call c.result s else evalCases env call (index + 1) rest s) := by
  simp only [evalCases, ask, Scoped.bind_apply, Scoped.adapt_apply, Scoped.lift_apply,
    Scoped.ite_apply]

theorem eval_cascade_cons :
    eval env call (cascade (c :: rest)) s =
      ((ask env call c.query s).mapError .ifCondition >>= fun holds =>
        if holds then eval env call c.result s else eval env call (cascade rest) s) := by
  cases rest <;>
    simp only [cascade, eval, ask, Scoped.bind_apply, Scoped.adapt_apply, Scoped.lift_apply,
      Scoped.ite_apply]

/-! ### Cases that do not hold -/

theorem evalCases_append (h : ∀ b ∈ before, ask env call b.query s = .ok false) (index : Nat) :
    evalCases env call index (before ++ rest) s =
      evalCases env call (index + before.length) rest s := by
  induction before generalizing index with
  | nil => rfl
  | cons b before ih =>
    obtain ⟨hb, hbefore⟩ := List.forall_mem_cons.1 h
    rw [List.cons_append, evalCases_cons, hb, List.length_cons, Nat.add_comm before.length,
      ← Nat.add_assoc]
    exact ih hbefore (index + 1)

theorem eval_cascade_append (h : ∀ b ∈ before, ask env call b.query s = .ok false) :
    eval env call (cascade (before ++ rest)) s = eval env call (cascade rest) s := by
  induction before with
  | nil => rfl
  | cons b before ih =>
    obtain ⟨hb, hbefore⟩ := List.forall_mem_cons.1 h
    rw [List.cons_append, eval_cascade_cons, hb]
    exact ih hbefore

/-! ### All cases -/

theorem toOption_cascade (cases : List (Case (Expr ν))) (index : Nat) :
    (evalCases env call index cases s).toOption = (eval env call (cascade cases) s).toOption := by
  induction cases generalizing index with
  | nil => rfl
  | cons c rest ih =>
    rw [evalCases_cons, eval_cascade_cons]
    cases ask env call c.query s with
    | error e => rfl
    | ok holds =>
      cases holds with
      | true => rfl
      | false => exact ih (index + 1)

theorem run_eq_eval (env : Surroundings) (maps : Entries (Expr String)) (budget : Nat) :
    ∃ call, ∀ e, run env maps budget e = eval env call e := by
  cases budget with
  | zero => exact ⟨_, fun e => rfl⟩
  | succ budget => exact ⟨_, fun e => rfl⟩

/-- A match without a context and the cascade of its cases have one value or none, and report the
same reads in the same order. The first case whose query does not answer no decides: a failed query
is wrapped in its own way on each side, and the result of a case comes unchanged, error or not. -/
theorem switch_eq_cascade (env : Surroundings) (maps : Entries (Expr String)) (budget : Nat)
    (s : Option Value) (cases : List (Case (Expr String))) :
    let outcome (e : Expr String) : Except EvalError Value := run env maps budget e s
    let holds (c : Case (Expr String)) := outcome c.query >>= Value.expectBool
    (outcome (.switch none cases)).toOption = (outcome (cascade cases)).toOption ∧
    (∀ before c after, cases = before ++ c :: after → (∀ b ∈ before, holds b = .ok false) →
      (∀ cause, holds c = .error cause →
        outcome (.switch none cases) = .error (.matchCase before.length cause) ∧
          outcome (cascade cases) = .error (.ifCondition cause)) ∧
      (holds c = .ok true →
        outcome (.switch none cases) = outcome c.result ∧
          outcome (cascade cases) = outcome c.result)) ∧
    ((∀ c ∈ cases, holds c = .ok false) →
      outcome (.switch none cases) = .ok .absent ∧ outcome (cascade cases) = .ok .absent) ∧
    (switch none cases).targets = (cascade cases).targets := by
  intro outcome holds
  obtain ⟨call, hcall⟩ := run_eq_eval env maps budget
  have houtcome : ∀ e, outcome e = eval env call e s := fun e => congrFun (hcall e) s
  have hholds : ∀ c, holds c = ask env call c.query s := by
    intro c
    show outcome c.query >>= Value.expectBool = _
    rw [houtcome, ask]
  have hswitch : outcome (.switch none cases) = evalCases env call 0 cases s := by
    rw [houtcome, eval]
  simp only [hswitch, hholds, houtcome]
  refine ⟨toOption_cascade cases 0, ?_, ?_, (targets_cascade cases).symm⟩
  · rintro before c after rfl hbefore
    rw [evalCases_append hbefore, eval_cascade_append hbefore, evalCases_cons, eval_cascade_cons,
      Nat.zero_add]
    constructor
    · intro cause hcause
      rw [hcause]
      exact ⟨rfl, rfl⟩
    · intro htrue
      rw [htrue]
      exact ⟨rfl, rfl⟩
  · intro hall
    rw [← List.append_nil cases, evalCases_append hall, eval_cascade_append hall]
    exact ⟨rfl, rfl⟩

/-- The query of the second case fails; then its result is a match that fails in its own first
case, which is no failure of the query. -/
theorem switch_eq_cascade_inner :
    let env : Surroundings := ⟨⟨[]⟩, 0, []⟩
    let outcome (e : Expr String) : Except EvalError Value := run env [] maxApplications e none
    let no : Case (Expr String) := ⟨.literal (.bool false), .literal .null⟩
    let lost : Case (Expr String) := ⟨.var "x", .literal .null⟩
    let yes : Case (Expr String) := ⟨.literal (.bool true), .switch none [lost]⟩
    let cause : EvalError := .undefinedVariable "x"
    outcome (.switch none [no, lost]) = .error (.matchCase 1 cause) ∧
      outcome (cascade [no, lost]) = .error (.ifCondition cause) ∧
      outcome (.switch none [no, yes]) = .error (.matchCase 0 cause) ∧
      outcome (cascade [no, yes]) = .error (.matchCase 0 cause) := by
  intro env outcome no lost yes cause
  have hno : ∀ b ∈ [no], outcome b.query >>= Value.expectBool = .ok false :=
    List.forall_mem_singleton.2 rfl
  have hinner : outcome yes.result = .error (.matchCase 0 cause) := rfl
  obtain ⟨-, hlost, -⟩ := switch_eq_cascade env [] maxApplications none [no, lost]
  obtain ⟨-, hyes, -⟩ := switch_eq_cascade env [] maxApplications none [no, yes]
  obtain ⟨hmatch, hnested⟩ := (hlost [no] lost [] rfl hno).1 cause rfl
  obtain ⟨hmatch', hnested'⟩ := (hyes [no] yes [] rfl hno).2 rfl
  exact ⟨hmatch, hnested, hmatch'.trans hinner, hnested'.trans hinner⟩

end Expr

end MessageMapping
