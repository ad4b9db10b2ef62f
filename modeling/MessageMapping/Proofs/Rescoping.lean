import MessageMapping.Proofs.Agreement
import MessageMapping.Proofs.TargetOccurrences

/-!
# Scoping to a field is prefixing paths

`Expr.rebase` puts a path before the fields of an expression that belong to its own scope. An
expression in a case of a match on a field has the outcome that it has outside, rebased to the path
of the field (`rebase_agree`), and reports the same reads (`targets_rebase`). The texts of errors
name other paths on the two sides, so only their values agree.
-/

namespace MessageMapping

/-! ### Paths below paths -/

namespace Value

theorem get?_append (v : Value) (path rest : Path) :
    v.get? (path ++ rest) = (v.get? path).bind fun w => w.get? rest := by
  induction path generalizing v with
  | nil => rfl
  | cons segment path ih =>
    show (v.child? segment).bind _ = ((v.child? segment).bind _).bind _
    rw [Option.bind_assoc]
    exact Option.bind_congr fun w _ => ih w

/-- The value at a path, or the error that there is none. -/
def read (v : Value) (path : Path) : Except EvalError Value :=
  match v.get? path with
  | some w => .ok w
  | none => .error (.undefinedField path.text)

theorem read_append {v w : Value} {path : Path} (h : v.read path = .ok w) (rest : Path) :
    Agree (fun _ _ => True) (w.read rest) (v.read (path ++ rest)) := by
  unfold read at h ⊢
  rw [get?_append]
  cases hv : v.get? path with
  | none => simp [hv] at h
  | some u =>
    obtain rfl : u = w := by simpa [hv] using h
    cases hu : u.get? rest with
    | none => simpa [hu] using .error trivial
    | some x => simpa [hu] using .ok x

end Value

namespace Surroundings

theorem field_some (env : Surroundings) (path : Path) (v : Value) :
    env.field path (some v) = v.read path := by
  unfold Value.read
  show (match v.get? path with | some w => _ | none => _ : Scoped Value) _ = _
  cases v.get? path <;> rfl

theorem field_none (env : Surroundings) (path : Path) :
    env.field path none =
      (env.batch.message env.index >>= Message.readDocument) >>= fun root => root.read path := by
  show (liftM (env.batch.document env.index path) : Scoped Value) none = _
  rw [Scoped.lift_apply, Batch.document, bind_assoc]
  rfl

theorem field_append {env : Surroundings} {path : Path} {s : Option Value} {v : Value}
    (h : env.field path s = .ok v) (rest : Path) :
    Agree (fun _ _ => True) (env.field rest (some v)) (env.field (path ++ rest) s) := by
  rw [field_some]
  cases s with
  | some w =>
    rw [field_some] at h ⊢
    exact Value.read_append h rest
  | none =>
    rw [field_none] at h ⊢
    cases hroot : env.batch.message env.index >>= Message.readDocument with
    | error e =>
      rw [hroot] at h
      cases h
    | ok root =>
      rw [hroot] at h
      exact Value.read_append h rest

end Surroundings

/-! ### Rebasing -/

namespace Expr

variable {ν : Type}

mutual

/-- The expression with `base` before the paths of all fields of its own scope. -/
def rebase (base : Path) : Expr ν → Expr ν
  | field path => .field (base ++ path)
  | literal value => .literal value
  | document path => .document path
  | metadata key => .metadata key
  | var name => .var name
  | arithmetic operands => .arithmetic (rebaseOperands base operands)
  | conditional condition consequent alternative =>
    .conditional (rebase base condition) (rebase base consequent)
      (match alternative with
      | some alternative => some (rebase base alternative)
      | none => none)
  | switch context cases =>
    match context with
    | some context => .switch (some (rebase base context)) cases
    | none => .switch none (rebaseCases base cases)
  | not operand => .not (rebase base operand)
  | apply name => .apply name

def rebaseCases (base : Path) : List (Case (Expr ν)) → List (Case (Expr ν))
  | [] => []
  | ⟨query, result⟩ :: rest => ⟨rebase base query, rebase base result⟩ :: rebaseCases base rest

def rebaseOperands (base : Path) : Grouping (Expr ν) → Grouping (Expr ν)
  | .operand e => .operand (rebase base e)
  | .chain first rest => .chain (rebaseOperands base first) (rebaseRest base rest)

def rebaseRest (base : Path) :
    List (Operator × Grouping (Expr ν)) → List (Operator × Grouping (Expr ν))
  | [] => []
  | (op, g) :: rest => (op, rebaseOperands base g) :: rebaseRest base rest

end

theorem rebaseCases_eq (base : Path) (cases : List (Case (Expr ν))) :
    rebaseCases base cases = cases.map fun c => ⟨c.query.rebase base, c.result.rebase base⟩ := by
  induction cases with
  | nil => rfl
  | cons c rest ih => simp [rebaseCases, ih]

theorem rebaseOperands_eq (base : Path) (g : Grouping (Expr ν)) :
    rebaseOperands base g = g.map (rebase base) := by
  have hrest : ∀ rest : List (Operator × Grouping (Expr ν)),
      rebaseRest base rest = rest.map fun p => (p.1, rebaseOperands base p.2) := by
    intro rest
    induction rest with
    | nil => rfl
    | cons p rest ih => simp [rebaseRest, ih]
  induction g using Grouping.induct with
  | operand e => simp [rebaseOperands]
  | chain first rest ihf ihr =>
    rw [rebaseOperands, hrest, Grouping.map_chain, ihf]
    congr 1
    exact List.map_congr_left fun p hp => by rw [ihr p hp]

/-! ### What rebased expressions do -/

variable {env : Surroundings} {call : ν → Scoped Value} {s : Option Value} {v : Value} {p : Path}

theorem branch_not_apply {e : Expr ν} {b : Branch ν} (h : ∀ n, ¬ InScope (.apply n) e)
    (hb : b ∈ e.branches) (hs : b.inScope = true) (n : ν) : ¬ InScope (.apply n) b.expr :=
  fun hn => h n (.branch hb hs hn)

/-- Evaluating in the scope of a field is evaluating what is rebased to its path. -/
theorem rebase_agree (hp : env.field p s = .ok v) (e : Expr ν)
    (h : ∀ n, ¬ InScope (.apply n) e) :
    Agree (fun _ _ => True) (eval env call e (some v)) (eval env call (e.rebase p) s) := by
  induction e using induct with
  | literal v => exact .ok v
  | field q => exact Surroundings.field_append hp q
  | document q => simpa [rebase, eval] using .any_refl _
  | metadata k => simpa [rebase, eval] using .any_refl _
  | var n => simpa [rebase, eval] using .any_refl _
  | arithmetic g ih =>
    rw [rebase, rebaseOperands_eq, eval_arithmetic, eval_arithmetic, Grouping.map_map]
    refine g.run_agree .any fun a ha => ih a ha ?_
    exact branch_not_apply (b := ⟨[], true, a⟩) h (by simpa [branches] using ha) rfl
  | conditional c t a ihc iht iha =>
    have hc := ihc (branch_not_apply (b := ⟨[], true, c⟩) h (by simp [branches]) rfl)
    have ht := iht (branch_not_apply (b := ⟨[], true, t⟩) h (by simp [branches]) rfl)
    cases a with
    | none => exact conditional_agree .any hc ht .none
    | some a =>
      have ha := iha a rfl (branch_not_apply (b := ⟨[], true, a⟩) h (by simp [branches]) rfl)
      exact conditional_agree .any hc ht (.some ha)
  | switch context cases ihx ihc =>
    cases context with
    | none =>
      show Agree _ (evalCases env call 0 cases (some v))
        (evalCases env call 0 (rebaseCases p cases) s)
      rw [rebaseCases_eq]
      refine evalCases_agree .any (List.forall₂_map_right_iff.2 ?_) 0
      refine List.forall₂_same.2 fun c hc => ?_
      have hb := mem_caseBranches hc [] true
      exact ⟨(ihc c hc).1 (branch_not_apply h hb.1 rfl), (ihc c hc).2 (branch_not_apply h hb.2 rfl)⟩
    | some x =>
      have hx := ihx x rfl (branch_not_apply (b := ⟨[], true, x⟩) h (by simp [branches]) rfl)
      -- both sides evaluate the same cases in the scope of one context
      exact switch_agree .any hx fun v => List.forall₂_same.2 fun c _ => ⟨.any_refl _, .any_refl _⟩
  | not e ih =>
    exact not_agree .any (ih (branch_not_apply (b := ⟨[], true, e⟩) h (by simp [branches]) rfl))
  | apply n => exact absurd .self (h n)

theorem operands_rebaseOperands (base : Path) (g : Grouping (Expr ν)) :
    (rebaseOperands base g).operands = g.operands.map (rebase base) := by
  rw [rebaseOperands_eq, Grouping.operands_map]

/-- No reads of the document, and matches on nothing but fields. -/
structure FieldScoped (e : Expr ν) : Prop where
  document : ∀ q, ¬ Within (.document q) e
  context : ∀ x cases, Within (.switch (some x) cases) e → ∃ q, x = .field q

theorem FieldScoped.branch {e : Expr ν} {b : Branch ν} (h : e.FieldScoped) (hb : b ∈ e.branches) :
    b.expr.FieldScoped :=
  ⟨fun q hq => h.document q (.branch hb hq), fun x cases hx => h.context x cases (.branch hb hx)⟩

/-- What is rebased reports the same reads, those of values below the base. -/
theorem targets_rebase (p : Path) {e : Expr ν} (h : e.FieldScoped) :
    (e.rebase p).targets = e.targets.map (Target.rescope p) := by
  induction e using induct with
  | literal v => rfl
  | field q => rfl
  | document q => exact absurd (.refl _) (h.document q)
  | metadata k => rfl
  | var n => rfl
  | arithmetic g ih =>
    rw [rebase, targets, targets, operandTargets_eq, operandTargets_eq, operands_rebaseOperands,
      List.map_flatMap, List.flatMap_map]
    refine List.flatMap_congr fun a ha => ih a ha (h.branch (b := ⟨[], true, a⟩) ?_)
    simpa [branches] using ha
  | conditional c t a ihc iht iha =>
    have hc := ihc (h.branch (b := ⟨[], true, c⟩) (by simp [branches]))
    have ht := iht (h.branch (b := ⟨[], true, t⟩) (by simp [branches]))
    cases a with
    | none => simp [rebase, targets, hc, ht]
    | some a =>
      have ha := iha a rfl (h.branch (b := ⟨[], true, a⟩) (by simp [branches]))
      simp [rebase, targets, hc, ht, ha]
  | switch context cases ihx ihc =>
    cases context with
    | none =>
      rw [rebase, targets, targets, rebaseCases_eq, caseTargets_eq, caseTargets_eq,
        List.map_flatMap, List.flatMap_map]
      refine List.flatMap_congr fun c hc => ?_
      have hb := mem_caseBranches hc [] true
      rw [List.map_append, (ihc c hc).1 (h.branch hb.1), (ihc c hc).2 (h.branch hb.2)]
    | some x =>
      obtain ⟨q, rfl⟩ := h.context x cases (.refl _)
      have hbase : ∀ q : Path, base (.field q : Expr ν) = q := fun _ => rfl
      -- the bases of nested matches add up, the outer one in front
      have hcomp : Target.rescope p ∘ Target.rescope q = Target.rescope (p ++ q) :=
        funext fun t => t.rescope_rescope q p
      rw [rebase, rebase, targets_switch, targets_switch, List.map_append, List.map_map, hbase,
        hbase, hcomp]
      rfl
  | not e ih =>
    rw [rebase, targets, targets]
    exact ih (h.branch (b := ⟨[], true, e⟩) (by simp [branches]))
  | apply n => rfl

/-- A match on a field whose one case holds: without applications it has the outcome of its result
rebased to the path of the field, and reports its reads followed by the field. -/
theorem switch_eq_rebase (e : Expr ν) (p : Path) (happly : ∀ n, ¬ Within (.apply n) e) :
    (∀ env call s v, eval env call (.field p) s = .ok v →
      (eval env call (.switch (some (.field p)) [⟨.literal (.bool true), e⟩]) s).toOption =
        (eval env call (e.rebase p) s).toOption) ∧
    (e.FieldScoped →
      targets (.switch (some (.field p)) [⟨.literal (.bool true), e⟩]) =
        (e.rebase p).targets ++ [⟨.value, p⟩]) := by
  constructor
  · intro env call s v hv
    have hswitch : eval env call (.switch (some (.field p)) [⟨.literal (.bool true), e⟩]) s =
        eval env call e (some v) := by
      rw [eval, Scoped.bind_apply, hv]
      rfl
    rw [hswitch]
    exact (rebase_agree hv e fun n hn => happly n hn.occurs.within).toOption_eq
  · intro h
    rw [targets_switch, targets_rebase p h]
    simp [caseTargets, targets, base, scopePath?]

/-- `b | match c (true => d)` in the scope of `a`, where there is no `b`. -/
theorem switch_eq_rebase_nested :
    let e : Expr String := .arithmetic (.chain (.operand (.field ["b"])) [(.coalesce,
      .operand (.switch (some (.field ["c"])) [⟨.literal (.bool true), .field ["d"]⟩]))])
    let scope : Value := .object [("a", .object [("c", .object [("d", .string "found")])])]
    (∀ n, ¬ Within (.apply n) e) ∧ e.FieldScoped ∧
      (eval ⟨⟨[]⟩, 0, []⟩ (fun n => throw (.undefinedMap n)) (e.rebase ["a"])
        (some scope)).toOption = some (.string "found") ∧
      targets (.switch (some (.field ["a"])) [⟨.literal (.bool true), e⟩]) =
        [["a", "b"], ["a", "c", "d"], ["a", "c"], ["a"]].map (Target.mk .value) := by
  intro e scope
  have happly : ∀ n, ¬ Within (.apply n) e := by simp [e]
  have hfields : e.FieldScoped := ⟨by simp [e], by simp +contextual [e]⟩
  obtain ⟨heval, htargets⟩ := switch_eq_rebase e ["a"] happly
  refine ⟨happly, hfields, ?_, ?_⟩
  · rw [← heval ⟨⟨[]⟩, 0, []⟩ _ (some scope) _ rfl]
    rfl
  · rw [htargets hfields]
    rfl

end Expr

end MessageMapping
