import MessageMapping.Proofs.ErrorCauses
import MessageMapping.Proofs.Layers
import MessageMapping.Proofs.Postconditions

/-!
# Mismatches that contradict themselves

A mismatch names the kind that was expected and the kind that was found. The left operand alone
decides what was expected, so `-`, `*`, `/` and `%` ask a string to come after a string and then
refuse it. Main result: no other report names one kind twice. In a grouping whose chains are
`Tiered`, as all are that are grouped by precedence, only operators of the three tightest tiers are
applied to values, and of these only the four can raise such a report.
-/

namespace MessageMapping

/-! ### Chains of one tier -/

/-- Coalescing and logic stay among themselves, so the operators applied are of tighter tiers. -/
theorem Chain.tier_of_mem_applied {α : Type u} {rest : List (Operator × α)} {tier : Nat}
    (htier : ∀ p ∈ rest, p.1.tier = tier) {op : Operator} (h : op ∈ applied rest) :
    op.tier = tier ∧ tier < 3 := by
  cases rest with
  | nil => cases h
  | cons p rest =>
    obtain ⟨first, a⟩ := p
    have hfirst : first.tier = tier := htier _ List.mem_cons_self
    have hmem : op ∈ ((first, a) :: rest).map Prod.fst ∧ first.tier < 3 := by
      cases first with
      | coalesce | and | or => cases h
      | _ => exact ⟨h, by decide⟩
    obtain ⟨q, hq, rfl⟩ := List.mem_map.1 hmem.1
    exact ⟨htier q hq, hfirst ▸ hmem.2⟩

namespace Grouping

/-- The operators of each chain are of one tier. -/
inductive Tiered {α : Type u} : Grouping α → Prop
  | operand (a : α) : Tiered (.operand a)
  | chain {first : Grouping α} {rest : List (Operator × Grouping α)} (tier : Nat)
    (htier : ∀ p ∈ rest, p.1.tier = tier) (hfirst : Tiered first)
    (hrest : ∀ p ∈ rest, Tiered p.2) : Tiered (.chain first rest)

theorem Tiered.tier_lt {α : Type u} {g : Grouping α} (hg : g.Tiered) {op : Operator}
    (h : g.Applies op) : op.tier < 3 := by
  induction h with
  | chain h =>
    cases hg with | chain tier htier _ _
    obtain ⟨hop, hlt⟩ := Chain.tier_of_mem_applied htier h
    omega
  | first _ ih =>
    cases hg with | chain _ _ hfirst _
    exact ih hfirst
  | rest hp _ ih =>
    cases hg with | chain _ _ _ hrest
    exact ih (hrest _ hp)

theorem Layered.tiered {α : Type u} {bound : Nat} {g : Grouping α} (h : g.Layered bound) :
    g.Tiered := by
  induction h with
  | operand bound a => exact .operand a
  | chain _ _ htier _ _ ihf ihr => exact .chain _ htier ihf ihr

end Grouping

/-- All chains in the expression are of one tier each. -/
def Expr.Tiered {ν : Type u} (e : Expr ν) : Prop :=
  ∀ g, Within (.arithmetic g) e → g.Tiered

theorem Definition.tiered_of_build {d : Definition} {e : Expr String} (h : d.build = .ok e) :
    e.Tiered := by
  intro g hg
  obtain ⟨d', depth', hbuilt⟩ := built_of_within h hg
  cases hbuilt with | arithmetic _ hg
  exact (Grouping.layered_of_ofLists? hg).tiered

/-! ### Errors and what they wrap -/

namespace EvalError

/-- `x` is the error itself or one that it wraps, at any depth. -/
inductive Level (x : EvalError) : EvalError → Prop
  | self : Level x x
  | cause {err cause : EvalError} (h : err.cause? = some cause) (hx : Level x cause) : Level x err

theorem Level.eq_of_cause_none {x err : EvalError} (h : Level x err) (hnone : err.cause? = none) :
    x = err := by
  cases h with
  | self => rfl
  | cause h _ => rw [hnone] at h; cases h

end EvalError

/-! ### Operators -/

namespace Value

variable {left right : Value} {kind : Kind} {text : String}

theorem mismatch_same_kind (h : mismatch left right = .typeMismatch kind kind text) :
    kind = .string ∧ (∃ s t, left = .string s ∧ right = .string t) ∨
      ∃ x y, left = .number x ∧ right = .number y := by
  cases left with
  | string s =>
    obtain ⟨rfl, hkind, -⟩ := EvalError.typeMismatch.inj h
    cases right with
    | string t => exact .inl ⟨rfl, s, t, rfl, rfl⟩
    | _ => cases hkind
  | number x =>
    obtain ⟨rfl, hkind, -⟩ := EvalError.typeMismatch.inj h
    cases right with
    | number y => exact .inr ⟨x, y, rfl, rfl⟩
    | _ => cases hkind
  | _ =>
    obtain ⟨rfl, hkind, -⟩ := EvalError.typeMismatch.inj h
    cases hkind

theorem compare_ne_same_kind (op : Operator) :
    compare op left right ≠ .error (.typeMismatch kind kind text) := by
  intro h
  rcases mismatch_same_kind (error_of_compare h).symm with ⟨-, s, t, rfl, rfl⟩ | ⟨x, y, rfl, rfl⟩
  · cases h
  · cases h

theorem arithmetic_same_kind {op : Operator}
    (h : arithmetic op left right = .error (.typeMismatch kind kind text)) :
    kind = .string ∧ op ≠ .add := by
  rcases error_of_arithmetic h with hmismatch | hdivide
  · rcases mismatch_same_kind hmismatch.symm with ⟨hkind, s, t, rfl, rfl⟩ | ⟨x, y, rfl, rfl⟩
    · refine ⟨hkind, ?_⟩
      rintro rfl
      cases h
    · cases Numeric.error_of_arithmetic (map_eq_error.1 h)
  · cases hdivide

end Value

namespace Operator

/-- The operators that numbers alone can be given to. -/
def numeric : List Operator :=
  [sub, mul, div, mod]

theorem apply_same_kind {op : Operator} (hop : op.tier < 3) {left right : Value} {kind : Kind}
    {text : String} (h : op.apply left right = .error (.typeMismatch kind kind text)) :
    kind = .string ∧ op ∈ numeric := by
  cases op with
  | eq | ne => cases h
  | gt | ge | lt | le => exact absurd (map_eq_error.1 h) (Value.compare_ne_same_kind _)
  | and | or | coalesce => exact absurd hop (by decide)
  | add => exact absurd rfl (Value.arithmetic_same_kind h).2
  | _ => exact ⟨(Value.arithmetic_same_kind h).1, by decide⟩

theorem apply_strings {op : Operator} (hop : op ∈ numeric) (left right : String) :
    op.apply (.string left) (.string right) =
      .error (.typeMismatch .string .string right) := by
  simp only [numeric, List.mem_cons, List.not_mem_nil, or_false] at hop
  rcases hop with rfl | rfl | rfl | rfl <;> rfl

end Operator

/-! ### Runs -/

namespace EvalError

/-- Wherever one kind is named twice in the error, it is `string`, and an operator with `O` takes
numbers alone. -/
def Coherent (O : Operator → Prop) (err : EvalError) : Prop :=
  ∀ kind text, Level (.typeMismatch kind kind text) err →
    kind = .string ∧ ∃ op ∈ Operator.numeric, O op

variable {O : Operator → Prop}

theorem Coherent.of_cause {err cause : EvalError} (hcause : err.cause? = some cause)
    (h : cause.Coherent O) : err.Coherent O := by
  intro kind text hx
  cases hx with
  | self => cases hcause
  | cause hc hx =>
    rw [hcause] at hc
    obtain rfl := Option.some.inj hc
    exact h kind text hx

theorem Coherent.of_ne {err : EvalError} (hnone : err.cause? = none)
    (hne : ∀ expected found text, err ≠ .typeMismatch expected found text) : err.Coherent O :=
  fun kind text hx => absurd (hx.eq_of_cause_none hnone).symm (hne kind kind text)

end EvalError

namespace Expr

variable {O : Operator → Prop} {env : Surroundings}

theorem kept_coherent (hO : ∀ op, O op → op.tier < 3) :
    Kept O (fun _ => True) (EvalError.Coherent O) where
  bool _ := trivial
  absent := trivial
  expectBool v _ := .of_error fun err h => by
    cases v with
    | bool b => cases h
    | _ =>
      obtain rfl := Except.error.inj h
      intro kind text hx
      cases hx.eq_of_cause_none rfl
  apply op v w hop _ _ := .of_error fun err h kind text hx => by
    have hnone : err.cause? = none := by
      rcases Operator.error_of_apply h with ⟨_, _, _, rfl⟩ | rfl <;> rfl
    obtain rfl := hx.eq_of_cause_none hnone
    obtain ⟨hkind, hnumeric⟩ := Operator.apply_same_kind (hO op hop) h
    exact ⟨hkind, op, hnumeric, hop⟩
  ifCondition _ h := h.of_cause rfl
  matchCase _ _ h := h.of_cause rfl

theorem readsEnsure_coherent {e : Expr String} (he : ∀ op, e.Applies op → O op) :
    ReadsEnsure O (fun _ => True) (EvalError.Coherent O) env e where
  literal _ _ := trivial
  field p _ s _ := .of_error fun err h => by
    cases Surroundings.error_of_field h <;> exact .of_ne rfl nofun
  document p _ := .of_error fun err h => by
    cases Surroundings.error_of_document h <;> exact .of_ne rfl nofun
  metadata k _ := .of_error fun err h => by
    cases Surroundings.error_of_metadata h <;> exact .of_ne rfl nofun
  var n _ := .of_error fun err h => by
    obtain ⟨-, rfl⟩ := Surroundings.error_of_var h
    exact .of_ne rfl nofun
  operator := he

variable {e : Expr String} {maps : Entries (Expr String)}

theorem Tiered.tier_lt (he : e.Tiered) {op : Operator} (h : e.Applies op) : op.tier < 3 :=
  let ⟨g, hg, hop⟩ := h; (he g hg).tier_lt hop

/-- Of the operators that a run applies, only `-`, `*`, `/` and `%` can make a report that names
one kind twice, which is then `string`. Between two strings they always do. -/
theorem run_same_kind (he : e.Tiered) (hmaps : ∀ p ∈ maps, p.2.Tiered) (env : Surroundings)
    (budget : Nat) (s : Option Value) :
    (∀ err, run env maps budget e s = .error err → ∀ kind text,
      EvalError.Level (.typeMismatch kind kind text) err →
        kind = .string ∧
          ∃ op ∈ Operator.numeric, e.Applies op ∨ ∃ p ∈ maps, p.2.Applies op) ∧
    ∀ op ∈ Operator.numeric, ∀ left right,
      run env maps budget (.arithmetic (.chain (.operand (.literal (.string left)))
        [(op, .operand (.literal (.string right)))])) s =
        .error (.typeMismatch .string .string right) := by
  refine ⟨fun err h kind text hx => ?_, fun op hop left right => ?_⟩
  · let O (op : Operator) : Prop := op.tier < 3 ∧ (e.Applies op ∨ ∃ p ∈ maps, p.2.Applies op)
    have hrun : Ensures (fun _ => True) (EvalError.Coherent O) (run env maps budget e s) := by
      refine run_ensures (kept_coherent fun _ h => h.1) (fun n _ => .of_ne rfl nofun)
        (fun n body _ => .of_ne rfl nofun) (fun n body hn => readsEnsure_coherent fun op hop => ?_)
        budget (readsEnsure_coherent fun op hop => ⟨he.tier_lt hop, .inl hop⟩) fun _ _ => trivial
      have hbody := Entries.mem_of_get? hn
      exact ⟨Tiered.tier_lt (hmaps _ hbody) hop, .inr ⟨_, hbody, hop⟩⟩
    rw [h] at hrun
    obtain ⟨hkind, op, hnumeric, -, hop⟩ := hrun kind text hx
    exact ⟨hkind, op, hnumeric, hop⟩
  · have heval : ∀ call : String → Scoped Value,
        eval env call (.arithmetic (.chain (.operand (.literal (.string left)))
          [(op, .operand (.literal (.string right)))])) s =
          .error (.typeMismatch .string .string right) := by
      intro call
      rw [← Operator.apply_strings hop left right]
      simp only [Operator.numeric, List.mem_cons, List.not_mem_nil, or_false] at hop
      rcases hop with rfl | rfl | rfl | rfl <;> rfl
    cases budget <;> exact heval _

/-- The product of two strings in a condition of a map that a case applies. -/
theorem run_same_kind_wrapped :
    let d : MappingDefinition :=
      { maps := [("m", .conditional (.arithmetic [.literal (.string "a"), .field "b"] [.mul])
          (.var "x") none)]
        expr := .switch none [⟨.apply "m", .absent⟩] }
    ∃ m, Mapping.ofDefinition d = .ok m ∧ m.root.Tiered ∧ (∀ p ∈ m.maps, p.2.Tiered) ∧
      let err := EvalError.matchCase 0 (.ifCondition (.typeMismatch .string .string "c"))
      m.exec ⟨⟨[{ content := "\x7b\"b\":\"c\"\x7d".toUTF8 }]⟩, 0, []⟩ = .error err ∧
      EvalError.Level (.typeMismatch .string .string "c") err ∧
      ∃ op ∈ Operator.numeric,
        m.root.Applies op ∨ ∃ p ∈ m.maps, p.2.Applies op := by
  intro d
  obtain ⟨m, hm⟩ : ∃ m, Mapping.ofDefinition d = .ok m := ⟨_, rfl⟩
  obtain ⟨⟨_, hroot⟩, hmaps⟩ := Mapping.build_of_ofDefinition hm
  have hroot : m.root.Tiered := Definition.tiered_of_build hroot
  have hmaps : ∀ p ∈ m.maps, p.2.Tiered := fun p hp =>
    have ⟨_, hbody⟩ := hmaps p hp
    Definition.tiered_of_build hbody
  have hexec : m.exec ⟨⟨[{ content := "\x7b\"b\":\"c\"\x7d".toUTF8 }]⟩, 0, []⟩ =
      .error (.matchCase 0 (.ifCondition (.typeMismatch .string .string "c"))) := by
    obtain rfl := Except.ok.inj hm
    cbv
  have hlevel : EvalError.Level (.typeMismatch .string .string "c")
      (.matchCase 0 (.ifCondition (.typeMismatch .string .string "c"))) :=
    .cause rfl (.cause rfl .self)
  exact ⟨m, hm, hroot, hmaps, hexec, hlevel,
    ((run_same_kind hroot hmaps _ _ _).1 _ hexec _ _ hlevel).2⟩

/-- The difference of two strings asks for a string and refuses one. -/
theorem run_mismatch_contradicts :
    ¬ ∀ (e : Expr String) (maps : Entries (Expr String)) (env : Surroundings) (budget : Nat)
      (s : Option Value) (err : EvalError), run env maps budget e s = .error err →
      ∀ expected found text, EvalError.Level (.typeMismatch expected found text) err →
        expected ≠ found := by
  intro h
  let e : Expr String := .arithmetic (.chain (.operand (.literal (.string "a")))
    [(.sub, .operand (.literal (.string "b")))])
  have hrun : run ⟨default, 0, []⟩ [] maxApplications e none =
      .error (.typeMismatch .string .string "b") := rfl
  exact h e [] _ _ _ _ hrun .string .string "b" .self rfl

end Expr

end MessageMapping
