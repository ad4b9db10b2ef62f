import MessageMapping.Proofs.ErrorCauses

/-!
# Applications unrolled

Named maps may apply each other and themselves, so neither an expression nor the table of maps
bounds an evaluation. What does is the number of applications that are open: `evalAt` is one level
of evaluation with that number counted upwards, and `eq_evalAt_iff` says that its recursion has one
solution, which is `run`. `unroll` puts the bodies of maps in the place of their applications, down
to a depth; it leaves expressions over errors, which fail where a name stood. Main result: a run is
the evaluation of the expression unrolled 64 times, and it does not report the recursion limit if no
more than 64 applications can be open.
-/

namespace MessageMapping

namespace Expr

variable {ν μ : Type}

/-! ### Expressions in place of applications -/

mutual

/-- The expression with other expressions in the place of its applications. -/
def expand (body : ν → Expr μ) : Expr ν → Expr μ
  | literal value => .literal value
  | field path => .field path
  | document path => .document path
  | metadata key => .metadata key
  | var name => .var name
  | arithmetic operands => .arithmetic (expandOperands body operands)
  | conditional condition consequent alternative =>
    .conditional (expand body condition) (expand body consequent)
      (match alternative with
      | some alternative => some (expand body alternative)
      | none => none)
  | switch context cases =>
    .switch
      (match context with
      | some context => some (expand body context)
      | none => none)
      (expandCases body cases)
  | not operand => .not (expand body operand)
  | apply name => body name

def expandCases (body : ν → Expr μ) : List (Case (Expr ν)) → List (Case (Expr μ))
  | [] => []
  | ⟨query, result⟩ :: rest => ⟨expand body query, expand body result⟩ :: expandCases body rest

def expandOperands (body : ν → Expr μ) : Grouping (Expr ν) → Grouping (Expr μ)
  | .operand e => .operand (expand body e)
  | .chain first rest => .chain (expandOperands body first) (expandRest body rest)

def expandRest (body : ν → Expr μ) :
    List (Operator × Grouping (Expr ν)) → List (Operator × Grouping (Expr μ))
  | [] => []
  | (op, g) :: rest => (op, expandOperands body g) :: expandRest body rest

end

theorem expandCases_eq (body : ν → Expr μ) (cases : List (Case (Expr ν))) :
    expandCases body cases = cases.map fun c => ⟨c.query.expand body, c.result.expand body⟩ := by
  induction cases with
  | nil => rfl
  | cons c rest ih => simp [expandCases, ih]

theorem expandOperands_eq (body : ν → Expr μ) (g : Grouping (Expr ν)) :
    expandOperands body g = g.map (expand body) := by
  have hrest : ∀ rest : List (Operator × Grouping (Expr ν)),
      expandRest body rest = rest.map fun p => (p.1, expandOperands body p.2) := by
    intro rest
    induction rest with
    | nil => rfl
    | cons p rest ih => simp [expandRest, ih]
  induction g using Grouping.induct with
  | operand e => simp [expandOperands]
  | chain first rest ihf ihr =>
    rw [expandOperands, hrest, Grouping.map_chain, ihf]
    congr 1
    exact List.map_congr_left fun p hp => by rw [ihr p hp]

/-- Evaluating the expanded expression is evaluating the inserted expressions as calls. -/
theorem eval_expand (env : Surroundings) (call : μ → Scoped Value) (body : ν → Expr μ)
    (e : Expr ν) (s : Option Value) :
    eval env call (e.expand body) s = eval env (fun n => eval env call (body n)) e s := by
  refine Agree.eq ?_
  induction e using induct generalizing s with
  | literal | field | document | metadata | var => exact .of_eq rfl
  | arithmetic g ih =>
    rw [expand, expandOperands_eq, eval_arithmetic, eval_arithmetic, Grouping.map_map]
    exact g.run_agree .eq fun a ha => ih a ha s
  | conditional c t a ihc iht iha =>
    cases a with
    | none => exact conditional_agree .eq (ihc s) (iht s) .none
    | some a => exact conditional_agree .eq (ihc s) (iht s) (.some (iha a rfl s))
  | switch context cases ihx ihc =>
    have hcases : ∀ s, List.Forall₂ (fun c c' =>
        Agree (· = ·) (eval env call c.query s)
          (eval env (fun n => eval env call (body n)) c'.query s) ∧
        Agree (· = ·) (eval env call c.result s)
          (eval env (fun n => eval env call (body n)) c'.result s))
        (expandCases body cases) cases := by
      intro s
      rw [expandCases_eq]
      exact List.forall₂_map_left_iff.2
        (List.forall₂_same.2 fun c hc => ⟨(ihc c hc).1 s, (ihc c hc).2 s⟩)
    cases context with
    | none => exact evalCases_agree .eq (hcases s) 0
    | some x => exact switch_agree .eq (ihx x rfl s) fun v => hcases (some v)
  | not e ih => exact not_agree .eq (ih s)
  | apply n => exact .of_eq rfl

theorem within_apply_of_expand {body : ν → Expr μ} {m : μ} {e : Expr ν}
    (h : Within (.apply m) (e.expand body)) :
    ∃ n, Within (.apply n) e ∧ Within (.apply m) (body n) := by
  induction e using induct with
  | literal | field | document | metadata | var => simp [expand] at h
  | arithmetic g ih =>
    rw [expand, expandOperands_eq, Within.arithmetic_iff, Grouping.operands_map] at h
    simp only [reduceCtorEq, List.mem_map, exists_exists_and_eq_and, false_or] at h
    obtain ⟨a, ha, h⟩ := h
    obtain ⟨n, hn, h⟩ := ih a ha h
    exact ⟨n, Within.arithmetic_iff.2 (.inr ⟨a, ha, hn⟩), h⟩
  | conditional c t a ihc iht iha =>
    have hbranches : Within (.apply m) (c.expand body) ∨ Within (.apply m) (t.expand body) ∨
        ∃ e ∈ a, Within (.apply m) (e.expand body) := by
      cases a <;> simpa [expand] using h
    rcases hbranches with h | h | ⟨a, ha, h⟩
    · obtain ⟨n, hn, h⟩ := ihc h
      exact ⟨n, Within.conditional_iff.2 (.inr (.inl hn)), h⟩
    · obtain ⟨n, hn, h⟩ := iht h
      exact ⟨n, Within.conditional_iff.2 (.inr (.inr (.inl hn))), h⟩
    · obtain ⟨n, hn, h⟩ := iha a ha h
      exact ⟨n, Within.conditional_iff.2 (.inr (.inr (.inr ⟨a, ha, hn⟩))), h⟩
  | switch context cases ihx ihc =>
    have hcases : (∃ c ∈ expandCases body cases,
        Within (.apply m) c.query ∨ Within (.apply m) c.result) →
        ∃ n, (∃ c ∈ cases, Within (.apply n) c.query ∨ Within (.apply n) c.result) ∧
          Within (.apply m) (body n) := by
      rw [expandCases_eq]
      rintro ⟨c', hc', h⟩
      obtain ⟨c, hc, rfl⟩ := List.mem_map.1 hc'
      rcases h with h | h
      · obtain ⟨n, hn, h⟩ := (ihc c hc).1 h
        exact ⟨n, ⟨c, hc, .inl hn⟩, h⟩
      · obtain ⟨n, hn, h⟩ := (ihc c hc).2 h
        exact ⟨n, ⟨c, hc, .inr hn⟩, h⟩
    cases context with
    | none =>
      rw [expand, Within.switch_none_iff] at h
      obtain ⟨n, hn, h⟩ := hcases (h.resolve_left nofun)
      exact ⟨n, Within.switch_none_iff.2 (.inr hn), h⟩
    | some x =>
      rw [expand, Within.switch_some_iff] at h
      rcases h.resolve_left nofun with h | h
      · obtain ⟨n, hn, h⟩ := hcases h
        exact ⟨n, Within.switch_some_iff.2 (.inr (.inl hn)), h⟩
      · obtain ⟨n, hn, h⟩ := ihx x rfl h
        exact ⟨n, Within.switch_some_iff.2 (.inr (.inr hn)), h⟩
  | not e ih =>
    rw [expand, Within.not_iff] at h
    obtain ⟨n, hn, h⟩ := ih (h.resolve_left nofun)
    exact ⟨n, Within.not_iff.2 (.inr hn), h⟩
  | apply n => exact ⟨n, .refl _, h⟩

/-! ### Unrolling -/

/-- The expression with the bodies of maps in the place of their applications, to this depth. Where
a map is missing, or the depth is used up, stands a failure. -/
def unroll (maps : Entries (Expr String)) : Nat → Expr String → Expr EvalError
  | 0 => expand fun name =>
    match maps.get? name with
    | some _ => .apply (.recursionLimit name)
    | none => .apply (.undefinedMap name)
  | depth + 1 => expand fun name =>
    match maps.get? name with
    | some body => unroll maps depth body
    | none => .apply (.undefinedMap name)

/-- Evaluates an expression that applies nothing but fails where an application stood. -/
def evalUnrolled (env : Surroundings) (e : Expr EvalError) : Scoped Value :=
  eval env throw e

variable {env : Surroundings} {maps : Entries (Expr String)}

theorem run_eq_evalUnrolled (budget : Nat) (e : Expr String) (s : Option Value) :
    run env maps budget e s = evalUnrolled env (unroll maps budget e) s := by
  induction budget generalizing e s with
  | zero =>
    rw [evalUnrolled, unroll, eval_expand, run]
    congr 2
    funext n
    cases maps.get? n <;> rfl
  | succ budget ih =>
    rw [evalUnrolled, unroll, eval_expand, run]
    congr 2
    funext n s
    cases maps.get? n with
    | none => rfl
    | some body => exact ih body s

/-- Failures stand for missing maps, and for maps below as many open applications as were
unrolled. -/
theorem failure_of_within_unroll {depth : Nat} {e : Expr String} {err : EvalError}
    (h : Within (.apply err) (unroll maps depth e)) :
    (∃ n, err = .undefinedMap n ∧ maps.get? n = none) ∨
      ∃ n body, err = .recursionLimit n ∧ maps.get? n = some body ∧
        ApplicationChain maps (depth + 1) e := by
  induction depth generalizing e with
  | zero =>
    obtain ⟨n, hn, h⟩ := within_apply_of_expand h
    cases hmap : maps.get? n with
    | none =>
      rw [hmap, Within.apply_iff] at h
      exact .inl ⟨n, by injection h, hmap⟩
    | some body =>
      rw [hmap, Within.apply_iff] at h
      exact .inr ⟨n, body, by injection h, hmap, .apply hn hmap (.nil body)⟩
  | succ depth ih =>
    obtain ⟨n, hn, h⟩ := within_apply_of_expand h
    cases hmap : maps.get? n with
    | none =>
      rw [hmap, Within.apply_iff] at h
      exact .inl ⟨n, by injection h, hmap⟩
    | some body =>
      rw [hmap] at h
      refine (ih h).imp_right ?_
      rintro ⟨m, body', rfl, hm, hchain⟩
      exact ⟨m, body', rfl, hm, .apply hn hmap hchain⟩

/-! ### Counting open applications -/

/-- A chain is no longer than the ranks of the maps that it applies allow. -/
theorem ApplicationChain.length_le {rank : String → Nat} {length bound : Nat} {e : Expr String}
    (h : ApplicationChain maps length e)
    (hmaps : ∀ n body, maps.get? n = some body → ∀ m inner, Within (.apply m) body →
      maps.get? m = some inner → rank m < rank n)
    (he : ∀ n body, Within (.apply n) e → maps.get? n = some body → rank n < bound) :
    length ≤ bound := by
  induction h generalizing bound with
  | nil => exact Nat.zero_le _
  | apply hn hbody _ ih => exact Nat.lt_of_le_of_lt (ih (hmaps _ _ hbody)) (he _ _ hn hbody)

/-- One level of evaluation with this many applications open; `below` evaluates the bodies of maps
at the next level. -/
def evalAt (env : Surroundings) (maps : Entries (Expr String))
    (below : Nat → Expr String → Scoped Value) (depth : Nat) (e : Expr String) : Scoped Value :=
  eval env (fun name =>
    match maps.get? name with
    | none => throw (.undefinedMap name)
    | some body =>
      if maxApplications ≤ depth then throw (.recursionLimit name) else below (depth + 1) body) e

theorem evalAt_congr {f g : Nat → Expr String → Scoped Value} {depth : Nat}
    (h : depth < maxApplications → f (depth + 1) = g (depth + 1)) :
    evalAt env maps f depth = evalAt env maps g depth := by
  funext e
  unfold evalAt
  congr 1
  funext n
  cases maps.get? n with
  | none => rfl
  | some body =>
    dsimp only
    split
    · rfl
    · rename_i hdepth
      rw [h (Nat.lt_of_not_le hdepth)]

theorem evalAt_run (env : Surroundings) (maps : Entries (Expr String)) (depth : Nat) :
    evalAt env maps (fun depth => run env maps (maxApplications - depth)) depth =
      run env maps (maxApplications - depth) := by
  funext e
  unfold evalAt
  by_cases hdepth : maxApplications ≤ depth
  · rw [Nat.sub_eq_zero_of_le hdepth, run]
    congr 1
    funext n
    cases maps.get? n with
    | none => rfl
    | some body => exact if_pos hdepth
  · obtain ⟨budget, hbudget⟩ : ∃ budget, maxApplications - depth = budget + 1 :=
      Nat.exists_eq_succ_of_ne_zero (by omega)
    have hnext : maxApplications - (depth + 1) = budget := by omega
    rw [hbudget, run]
    congr 1
    funext n
    cases maps.get? n with
    | none => rfl
    | some body =>
      dsimp only
      rw [if_neg hdepth, hnext]

/-- The recursion through applications has one solution. -/
theorem eq_evalAt_iff {f : Nat → Expr String → Scoped Value} :
    f = evalAt env maps f ↔ f = fun depth => run env maps (maxApplications - depth) := by
  constructor
  · intro hf
    have hstep : ∀ depth, (depth < maxApplications →
        f (depth + 1) = run env maps (maxApplications - (depth + 1))) →
        f depth = run env maps (maxApplications - depth) := fun depth h =>
      calc f depth = evalAt env maps f depth := congrFun hf depth
        _ = evalAt env maps (fun depth => run env maps (maxApplications - depth)) depth :=
          evalAt_congr h
        _ = run env maps (maxApplications - depth) := evalAt_run env maps depth
    -- induction on how many applications may still be opened
    have hlevel : ∀ budget depth, maxApplications - depth ≤ budget →
        f depth = run env maps (maxApplications - depth) := by
      intro budget
      induction budget with
      | zero => exact fun depth hdepth => hstep depth fun h => by omega
      | succ budget ih => exact fun depth hdepth => hstep depth fun h => ih (depth + 1) (by omega)
    exact funext fun depth => hlevel _ depth (Nat.le_refl _)
  · rintro rfl
    exact funext fun depth => (evalAt_run env maps depth).symm

/-- Evaluation through applications, counted upwards from none, is determined by its equations and
is the evaluation of the unrolled expression, in which failures stand for applications. The
recursion limit is not reported, at the top or as a cause, if no chain of applications is longer
than the limit. -/
theorem run_eq_unroll (env : Surroundings) (maps : Entries (Expr String)) (e : Expr String) :
    (∀ f, f = evalAt env maps f ↔ f = fun depth => run env maps (64 - depth)) ∧
    run env maps maxApplications e = evalUnrolled env (unroll maps 64 e) ∧
    (∀ failure, Within (.apply failure) (unroll maps 64 e) →
      (∃ n, failure = .undefinedMap n ∧ maps.get? n = none) ∨
        ∃ n body, failure = .recursionLimit n ∧ maps.get? n = some body ∧
          ApplicationChain maps 65 e) ∧
    ((∀ length, ApplicationChain maps length e → length ≤ 64) →
      ∀ s err n, run env maps maxApplications e s = .error err →
        err.rootCause ≠ .recursionLimit n) := by
  refine ⟨fun f => eq_evalAt_iff, funext fun s => run_eq_evalUnrolled maxApplications e s,
    fun failure h => failure_of_within_unroll h, ?_⟩
  intro hchains s err n h hcause
  have hrun := run_rootCause h
  rw [hcause] at hrun
  cases hrun with
  | read _ _ h => cases h <;> rename_i h <;> cases h
  | recursionLimit _ hchain => exact absurd (hchains _ hchain) (by decide)

/-- The name of a map in a row of maps. -/
def rung (i : Nat) : String :=
  String.ofList (List.replicate i 'm')

/-- A row of maps, each of which applies the next one. -/
def ladder : Entries (Expr String) :=
  (List.range 64).map fun i => (rung i, .apply (rung (i + 1)))

/-- All 64 maps of the row are open when the last one applies a map that is missing. -/
theorem run_eq_unroll_ladder :
    (∀ length, ApplicationChain ladder length (.apply (rung 0)) → length ≤ 64) ∧
    Within (.apply (.undefinedMap (rung 64))) (unroll ladder 64 (.apply (rung 0))) ∧
    ladder.get? (rung 64) = none ∧
    ∀ env s err n, run env ladder maxApplications (.apply (rung 0)) s = .error err →
      err.rootCause ≠ .recursionLimit n := by
  have hladder : ∀ n body, ladder.get? n = some body →
      n.length < 64 ∧ body = .apply (rung (n.length + 1)) := by
    intro n body h
    obtain ⟨i, hi, hrung⟩ := List.mem_map.1 (Entries.mem_of_get? h)
    obtain ⟨rfl, rfl⟩ := Prod.mk.inj hrung
    simpa [rung] using hi
  have hrank : ∀ n body, ladder.get? n = some body → ∀ m inner, Within (.apply m) body →
      ladder.get? m = some inner → 63 - m.length < 63 - n.length := by
    intro n body hn m inner hm hinner
    obtain ⟨-, rfl⟩ := hladder n body hn
    obtain rfl : m = rung (n.length + 1) := by simpa using hm
    have hlength : (rung (n.length + 1)).length = n.length + 1 := by simp [rung]
    have := (hladder _ inner hinner).1
    omega
  have hchains : ∀ length, ApplicationChain ladder length (.apply (rung 0)) → length ≤ 64 :=
    fun length h => h.length_le hrank fun n _ _ _ => by omega
  have hunroll : unroll ladder 64 (.apply (rung 0)) = .apply (.undefinedMap (rung 64)) := by rfl
  have hfailure : Within (.apply (.undefinedMap (rung 64)))
      (unroll ladder 64 (.apply (rung 0))) := by
    rw [hunroll]
    exact .refl _
  obtain ⟨-, -, hfailures, -⟩ := run_eq_unroll ⟨⟨[]⟩, 0, []⟩ ladder (.apply (rung 0))
  refine ⟨hchains, hfailure, ?_, fun env => (run_eq_unroll env ladder _).2.2.2 hchains⟩
  rcases hfailures _ hfailure with ⟨n, hn, hmissing⟩ | ⟨n, body, hn, -⟩
  · rw [EvalError.undefinedMap.inj hn, hmissing]
  · cases hn

/-- A map that applies itself comes to the limit. -/
example (env : Surroundings) :
    run env [("loop", .apply "loop")] maxApplications (.apply "loop") none =
      .error (.recursionLimit "loop") := by rfl

end Expr

end MessageMapping
